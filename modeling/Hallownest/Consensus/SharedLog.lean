import Hallownest.Consensus.Safety
import Hallownest.Lib.SharedLog
import Mathlib.Data.List.MinMax

namespace Hallownest.Consensus

open Replog (Steps)
open Cluster (Reached)

/-!
# Consensus — the cluster as one log

What a cluster is for: seen from outside, it is a single log that only grows, of which every
node hands a first part to its storage engine.

* `RaftNode.committed`, `Cluster.committed` — what a node has committed, and the longest of
  these parts;
* `Cluster.shared` — the one log, and how far each node has read it;
* `refines_shared_log` — every run of the cluster is a run of that log.
-/

variable {cfg : Config} {s s' u v : Cluster} {acts : List Action}

/-- The committed part of a node's log. -/
def RaftNode.committed (r : RaftNode) : List RaftLogEntry := r.log.take (r.commitIndex + 1).toNat

namespace Cluster

/-- The longest committed part of a log. -/
def committed (cfg : Config) (s : Cluster) : List RaftLogEntry :=
  ((cfg.ids.argmax fun id => (s.nodes id).committed.length).map
    fun id => (s.nodes id).committed).getD []

/-- The cluster as one log, which every node reads as far as it has committed. -/
def shared (cfg : Config) (s : Cluster) : SharedLog.State Int RaftLogEntry where
  entries := s.committed cfg
  read := fun id => if id ∈ cfg.ids then (s.nodes id).committed.length else 0

private theorem shared_read {id : Int} (hid : id ∈ cfg.ids) :
    (s.shared cfg).read id = (s.nodes id).committed.length := if_pos hid

/-- The longest committed part is that of a node, and no other is longer. -/
theorem committed_spec (cfg : Config) (s : Cluster) :
    ∃ id ∈ cfg.ids, s.committed cfg = (s.nodes id).committed ∧
      ∀ j ∈ cfg.ids, (s.nodes j).committed.length ≤ (s.nodes id).committed.length := by
  cases hmax : cfg.ids.argmax fun id => (s.nodes id).committed.length with
  | none => exact absurd (List.argmax_eq_none.mp hmax) cfg.nonempty
  | some id =>
    refine ⟨id, List.argmax_mem hmax, ?_, fun j hj =>
      List.le_of_mem_argmax (f := fun id => (s.nodes id).committed.length) hj hmax⟩
    rw [committed, hmax]
    rfl

/-- A step changes one node. -/
private theorem step_one {act : Action} (h : s.step cfg act = .ok s') :
    ∃ id, ∀ j, j ≠ id → s'.nodes j = s.nodes j := by
  cases step_takes h with
  | electionTimeout hid => exact ⟨_, fun j hj => setNode_nodes_of_ne _ hj⟩
  | heartbeatTick => exact ⟨0, fun j _ => rfl⟩
  | submit hid => exact ⟨_, fun j hj => setNode_nodes_of_ne _ hj⟩
  | voteRequest => exact ⟨_, fun j hj => setNode_nodes_of_ne _ hj⟩
  | voteReply => exact ⟨_, fun j hj => setNode_nodes_of_ne _ hj⟩
  | appendRequest => exact ⟨_, fun j hj => setNode_nodes_of_ne _ hj⟩
  | appendReply => exact ⟨_, fun j hj => setNode_nodes_of_ne _ hj⟩
  | lose => exact ⟨0, fun j _ => rfl⟩
  | kill => exact ⟨_, fun j hj => setNode_nodes_of_ne _ hj⟩

end Cluster

section Committed

variable {a a' : Abs} {counted counted' : Int → Int → Finset Int}

/-- What a node has committed, in terms of the protocol. -/
theorem NodeSim.committed_eq {id : Int} {r : RaftNode} (hn : NodeSim cfg a id r) :
    r.committed = (a.log id).take (a.commit id) := by
  have hcommit := hn.commit
  rw [RaftNode.committed, hn.log, show (r.commitIndex + 1).toNat = a.commit id by omega]

/-- Of what two nodes have committed, the shorter part is a beginning of the longer one. -/
theorem Sim.committed_comparable (h : Sim cfg s a counted) {i j : Int} (hi : i ∈ cfg.ids)
    (hj : j ∈ cfg.ids)
    (hle : (s.nodes i).committed.length ≤ (s.nodes j).committed.length) :
    (s.nodes i).committed <+: (s.nodes j).committed := by
  have hlen : ∀ n, ((a.log n).take (a.commit n)).length = a.commit n := fun n => by
    rw [List.length_take, Nat.min_eq_left (h.ok.inv.commit_le n)]
  rw [(h.nodes i hi).committed_eq, (h.nodes j hj).committed_eq] at hle ⊢
  rw [hlen, hlen] at hle
  have hagree : (a.log i).take (a.commit i) = (a.log j).take (a.commit i) := by
    apply List.ext_getElem?
    intro k
    by_cases hk : k < a.commit i
    · rw [List.getElem?_take_of_lt hk, List.getElem?_take_of_lt hk]
      exact h.ok.inv.commit_agree hk (lt_of_lt_of_le hk hle)
    · rw [List.getElem?_take_eq_none (by omega), List.getElem?_take_eq_none (by omega)]
  rw [hagree]
  exact List.take_prefix_take_left hle

/-- What a node has committed is a beginning of the shared log. -/
theorem Sim.committed_prefix_shared (h : Sim cfg s a counted) {i : Int} (hi : i ∈ cfg.ids) :
    (s.nodes i).committed <+: s.committed cfg := by
  obtain ⟨j, hj, heq, hlongest⟩ := Cluster.committed_spec cfg s
  rw [heq]
  exact h.committed_comparable hi hj (hlongest i hi)

/-- Along a run, what a node has committed only grows. -/
theorem Sim.committed_grows (h : Sim cfg s a counted) (h' : Sim cfg s' a' counted')
    (hrun : Steps (protocol cfg) a a') {i : Int} (hi : i ∈ cfg.ids) :
    (s.nodes i).committed <+: (s'.nodes i).committed := by
  obtain ⟨hle, hkept⟩ := Steps.commit_kept h.ok.inv hrun i
  rw [(h.nodes i hi).committed_eq, (h'.nodes i hi).committed_eq, List.prefix_take_iff]
  refine ⟨hkept, ?_⟩
  rw [List.length_take]
  omega

/-- What a node has sent on its channel is what it has read of the shared log, without the dummy
    entry. -/
theorem Sim.sent_eq_seen (h : Sim cfg s a counted) {i : Int} (hi : i ∈ cfg.ids)
    {sent : List ApplyMsg} (hsent : (s.nodes i).applyCh = some sent) :
    sent = (((s.shared cfg).seen i).drop 1).map RaftNode.applyMsg := by
  have hn := h.nodes i hi
  have happlied := hn.applied
  have hcommit := hn.commit
  have hbase := h.ok.inv.base_le i
  have hseen : (s.shared cfg).seen i = (s.nodes i).committed := by
    rw [SharedLog.State.seen, Cluster.shared_read hi]
    exact (List.prefix_iff_eq_take.mp (h.committed_prefix_shared hi)).symm
  rw [hn.sent_eq hsent, hseen, deliveredOf, RaftNode.committed]
  have hone : (protocol cfg).base.length = 1 := rfl
  rw [List.drop_take, show (s.nodes i).lastApplied.toNat = ((s.nodes i).commitIndex + 1).toNat - 1
    by omega]

end Committed

/-- **The cluster is one log.**  In every run, from each moment to the next, entries may be
    appended to the one log of the cluster and one node may read on in it, and nothing else
    happens to it; at every moment, what a node has handed to its storage engine is what it has
    read of that log. -/
theorem refines_shared_log (hids : (-1 : Int) ∉ cfg.ids) {i : ℕ}
    (hu : Reached cfg (acts.take i) u) (hv : Reached cfg (acts.take (i + 1)) v) :
    SharedLog.Steps (u.shared cfg) (v.shared cfg) ∧
    ∀ id ∈ cfg.ids, ∀ sent, (v.nodes id).applyCh = some sent →
      sent = (((v.shared cfg).seen id).drop 1).map RaftNode.applyMsg := by
  obtain ⟨f, hf, hrun⟩ := exists_abstract_run hids acts
  obtain ⟨_, hsim⟩ := hf i u hu
  obtain ⟨_, hsim'⟩ := hf (i + 1) v hv
  refine ⟨?_, fun id hid sent hsent => hsim'.sent_eq_seen hid hsent⟩
  have hgrows : ∀ j ∈ cfg.ids, (u.nodes j).committed <+: (v.nodes j).committed :=
    fun j hj => hsim.committed_grows hsim' (hrun (Nat.le_succ i)) hj
  have hentries : u.committed cfg <+: v.committed cfg := by
    obtain ⟨j, hj, heq, _⟩ := Cluster.committed_spec cfg u
    rw [heq]
    exact (hgrows j hj).trans (hsim'.committed_prefix_shared hj)
  rcases Run.Reached.between hu hv with rfl | ⟨x, _, hstep⟩
  · exact Relation.ReflTransGen.refl
  · obtain ⟨id, hother⟩ := Cluster.step_one hstep
    refine SharedLog.steps_of_reader id hentries (fun j hj => ?_) ?_ ?_
    · simp only [Cluster.shared, hother j hj]
    · simp only [Cluster.shared]
      split
      next hid => exact (hgrows id hid).length_le
      next => exact le_refl 0
    · simp only [Cluster.shared]
      split
      next hid => exact (hsim'.committed_prefix_shared hid).length_le
      next => exact Nat.zero_le _

/-- In the last step of `pairRun` node 1 learns that the command is committed, and reads it. -/
theorem refines_shared_log_pair : ∃ u v, Reached pair (pairRun.take 7) u ∧
    Reached pair (pairRun.take 8) v ∧ SharedLog.Steps (u.shared pair) (v.shared pair) ∧
    (u.shared pair).read 1 = 1 ∧ (v.shared pair).read 1 = 2 ∧
    ∀ sent, (v.nodes 1).applyCh = some sent →
      sent = (((v.shared pair).seen 1).drop 1).map RaftNode.applyMsg := by
  obtain ⟨u, hu, hread⟩ := Run.exists_reached (Cluster.step pair) (Cluster.initial pair)
    (pairRun.take 7) (fun s => (s.shared pair).read 1) 1 (by decide)
  obtain ⟨v, hv, hread'⟩ := Run.exists_reached (Cluster.step pair) (Cluster.initial pair)
    (pairRun.take 8) (fun s => (s.shared pair).read 1) 2 (by decide)
  obtain ⟨hsteps, hsent⟩ := refines_shared_log (by decide) hu hv
  exact ⟨u, v, hu, hv, hsteps, hread, hread', hsent 1 (by decide)⟩

end Hallownest.Consensus
