import Hallownest.Storage.Writes

namespace Hallownest.Storage

/-!
# Storage — random heights (`randomLevel`)

The other modules take the height of a new node as a parameter.  Here `insert` draws it: `draws i`
says whether the `i`-th random number is below `P`, and a position in the sequence is the state of
the generator.  A number is drawn for every comparison, also for the one that the bound on the
height ends, and none for a key that exists.

The tables that writes can lead to are exactly those that they lead to with heights in
`1..MaxLevel` (`drawn_runs`).
-/

/-- The loop of `randomLevel`; there are no more rounds than levels. -/
def climb (draws : ℕ → Bool) (maxLevel : Int) : ℕ → ℕ → ℕ → ℕ × ℕ
  | 0, lvl, pos => (lvl, pos)
  | fuel + 1, lvl, pos =>
    if draws pos && decide ((lvl : Int) < maxLevel) then
      climb draws maxLevel fuel (lvl + 1) (pos + 1)
    else (lvl, pos + 1)

/-- The height of a new node (`randomLevel`), and the next position in the draws. -/
def randomLevel (draws : ℕ → Bool) (maxLevel : Int) (pos : ℕ) : ℕ × ℕ :=
  climb draws maxLevel maxLevel.toNat 1 pos

variable {draws : ℕ → Bool} {maxLevel : Int}

private theorem climb_bounds : ∀ (fuel : ℕ) {lvl : ℕ} (pos : ℕ), (lvl : Int) ≤ maxLevel →
    lvl ≤ (climb draws maxLevel fuel lvl pos).1 ∧
      ((climb draws maxLevel fuel lvl pos).1 : Int) ≤ maxLevel := by
  intro fuel
  induction fuel with
  | zero => exact fun _ hle => ⟨le_refl _, hle⟩
  | succ fuel ih =>
    intro lvl pos hle
    unfold climb
    split
    · rename_i hgo
      simp only [Bool.and_eq_true, decide_eq_true_eq] at hgo
      obtain ⟨hlow, hhigh⟩ := ih (pos + 1) (show ((lvl + 1 : ℕ) : Int) ≤ maxLevel by omega)
      exact ⟨by omega, hhigh⟩
    · exact ⟨le_refl _, hle⟩

/-- `k` draws below `P` and one that is not. -/
private theorem climb_eq : ∀ (k fuel lvl pos : ℕ), ((lvl + k : ℕ) : Int) ≤ maxLevel → k < fuel →
    (∀ i < k, draws (pos + i) = true) → draws (pos + k) = false →
    climb draws maxLevel fuel lvl pos = (lvl + k, pos + k + 1) := by
  intro k
  induction k with
  | zero =>
    intro fuel lvl pos _ hfuel _ hlast
    obtain ⟨fuel, rfl⟩ := Nat.exists_eq_add_of_lt hfuel
    simp [climb, show draws pos = false from hlast]
  | succ k ih =>
    intro fuel lvl pos hle hfuel hgo hlast
    obtain ⟨fuel, rfl⟩ : ∃ n, fuel = n + 1 := ⟨fuel - 1, by omega⟩
    have hfirst : draws pos = true := hgo 0 (by omega)
    have hlt : (lvl : Int) < maxLevel := by omega
    have hrest := ih fuel (lvl + 1) (pos + 1) (by omega) (by omega)
      (fun i hi => by rw [← hgo (i + 1) (by omega)]; congr 1; omega)
      (by rw [← hlast]; congr 1; omega)
    unfold climb
    rw [if_pos (by simp [hfirst, hlt]), hrest, Prod.mk.injEq]
    omega

/-- **The heights are legal.** -/
theorem randomLevel_legal (draws : ℕ → Bool) (hmax : 1 ≤ maxLevel) (pos : ℕ) :
    1 ≤ (randomLevel draws maxLevel pos).1 ∧
      ((randomLevel draws maxLevel pos).1 : Int) ≤ maxLevel :=
  climb_bounds _ pos hmax

/-- The draws that lead to a height. -/
def bitsOf (level : ℕ) : List Bool := List.replicate (level - 1) true ++ [false]

theorem length_bitsOf {level : ℕ} (h1 : 1 ≤ level) : (bitsOf level).length = level := by
  simp [bitsOf]
  omega

/-- The draws at a position begin with `bits`. -/
def Begins (draws : ℕ → Bool) (pos : ℕ) (bits : List Bool) : Prop :=
  ∀ i, i < bits.length → bits[i]? = some (draws (pos + i))

theorem Begins.left {pos : ℕ} {bits bits' : List Bool} (h : Begins draws pos (bits ++ bits')) :
    Begins draws pos bits := by
  intro i hi
  rw [← h i (by rw [List.length_append]; omega), List.getElem?_append_left hi]

theorem Begins.right {pos : ℕ} {bits bits' : List Bool} (h : Begins draws pos (bits ++ bits')) :
    Begins draws (pos + bits.length) bits' := by
  intro i hi
  have hat := h (bits.length + i) (by rw [List.length_append]; omega)
  rw [List.getElem?_append_right (by omega), Nat.add_sub_cancel_left] at hat
  rw [hat, Nat.add_assoc]

/-- **Every legal height is drawn by some numbers.** -/
theorem randomLevel_bitsOf {level pos : ℕ} (h1 : 1 ≤ level) (hle : (level : Int) ≤ maxLevel)
    (h : Begins draws pos (bitsOf level)) :
    randomLevel draws maxLevel pos = (level, pos + level) := by
  have hlen := length_bitsOf h1
  have hgo : ∀ i < level - 1, draws (pos + i) = true := by
    intro i hi
    have hat := h i (by omega)
    rw [bitsOf, List.getElem?_append_left (by simpa using hi), List.getElem?_replicate, if_pos hi]
      at hat
    exact (Option.some.inj hat).symm
  have hlast : draws (pos + (level - 1)) = false := by
    have hat := h (level - 1) (by omega)
    rw [bitsOf, List.getElem?_append_right (by simp)] at hat
    simpa using hat.symm
  have hclimb : climb draws maxLevel maxLevel.toNat 1 pos =
      (1 + (level - 1), pos + (level - 1) + 1) :=
    climb_eq (level - 1) maxLevel.toNat 1 pos (by omega) (by omega) hgo hlast
  rw [randomLevel, hclimb, Prod.mk.injEq]
  omega

/-! ### Writes that draw -/

namespace MemTable

/-- The branch of `insert` for a new key. -/
def addDrawn (draws : ℕ → Bool) (m : MemTable) (pos : ℕ) (update : List (Option ℕ))
    (key value : Bytes) (tombstone : Bool) : Option (MemTable × ℕ) := do
  let (newLevel, pos) := randomLevel draws m.opts.maxLevel pos
  let (m, _) ← m.add update key value tombstone newLevel
  return (m, pos)

/-- `insert` with the generator at position `pos`. -/
def insertDrawn (draws : ℕ → Bool) (m : MemTable) (pos : ℕ) (key value : Bytes)
    (tombstone : Bool) : Option (MemTable × ℕ) := do
  let (curr, update) ← m.search key m.level head (List.replicate m.opts.maxLevel.toNat none)
  match ← forwardAt m.nodes 0 curr with
  | some p =>
    let n ← m.nodes[p]?
    if n.key = key then return ((m.replace p n key value tombstone).1, pos)
    else m.addDrawn draws pos update key value tombstone
  | none => m.addDrawn draws pos update key value tombstone

/-- One write. -/
def applyDrawn (draws : ℕ → Bool) (s : MemTable × ℕ) : Op → Option (MemTable × ℕ)
  | .put key value => s.1.insertDrawn draws s.2 key value false
  | .delete key => s.1.insertDrawn draws s.2 key [] true

/-- A sequence of writes. -/
def runDrawn (draws : ℕ → Bool) (s : MemTable × ℕ) (ops : List Op) : Option (MemTable × ℕ) :=
  ops.foldlM (applyDrawn draws) s

variable {m m' : MemTable} {op : Op}

theorem addDrawn_eq (draws : ℕ → Bool) (m : MemTable) (pos : ℕ) (update : List (Option ℕ))
    (key value : Bytes) (tombstone : Bool) :
    m.addDrawn draws pos update key value tombstone =
      (m.add update key value tombstone (randomLevel draws m.opts.maxLevel pos).1).map
        fun r => (r.1, (randomLevel draws m.opts.maxLevel pos).2) := by
  unfold addDrawn
  rcases randomLevel draws m.opts.maxLevel pos with ⟨newLevel, pos'⟩
  cases hadd : m.add update key value tombstone newLevel <;> simp [hadd]

/-- **When a height is drawn**: for a key that exists the height does not matter and nothing is
    drawn; for a new one it is drawn. -/
theorem insertDrawn_eq (m : MemTable) (key value : Bytes) (tombstone : Bool) :
    (∀ draws pos newLevel, m.insertDrawn draws pos key value tombstone =
      (m.insert key value tombstone newLevel).map fun r => (r.1, pos)) ∨
    ∀ draws pos, m.insertDrawn draws pos key value tombstone =
      (m.insert key value tombstone (randomLevel draws m.opts.maxLevel pos).1).map
        fun r => (r.1, (randomLevel draws m.opts.maxLevel pos).2) := by
  unfold insertDrawn insert
  rcases m.search key m.level head (List.replicate m.opts.maxLevel.toNat none) with
    _ | ⟨curr, update⟩
  · exact Or.inl fun _ _ _ => rfl
  · simp only [Option.bind_eq_bind, Option.bind_some]
    rcases forwardAt m.nodes 0 curr with _ | _ | p
    · exact Or.inl fun _ _ _ => rfl
    · exact Or.inr fun draws pos => addDrawn_eq draws m pos update key value tombstone
    · simp only [Option.bind_some]
      rcases m.nodes[p]? with _ | n
      · exact Or.inl fun _ _ _ => rfl
      · by_cases hkey : n.key = key
        · simp only [Option.bind_some, hkey, if_true]
          exact Or.inl fun _ _ _ => rfl
        · simp only [Option.bind_some, hkey, if_false]
          exact Or.inr fun draws pos => addDrawn_eq draws m pos update key value tombstone

theorem applyDrawn_eq (m : MemTable) (op : Op) :
    (∀ draws pos newLevel, applyDrawn draws (m, pos) op =
      (m.apply op newLevel).map fun m' => (m', pos)) ∨
    ∀ draws pos, applyDrawn draws (m, pos) op =
      (m.apply op (randomLevel draws m.opts.maxLevel pos).1).map
        fun m' => (m', (randomLevel draws m.opts.maxLevel pos).2) := by
  cases op with
  | put key value =>
    refine (insertDrawn_eq m key value false).imp (fun h draws pos newLevel => ?_)
      fun h draws pos => ?_
    · rw [applyDrawn, h draws pos newLevel, apply, put, Option.map_map]
      rfl
    · rw [applyDrawn, h draws pos, apply, put, Option.map_map]
      rfl
  | delete key =>
    refine (insertDrawn_eq m key [] true).imp (fun h draws pos newLevel => ?_)
      fun h draws pos => ?_
    · rw [applyDrawn, h draws pos newLevel, apply, delete, Option.map_map]
      rfl
    · rw [applyDrawn, h draws pos, apply, delete, Option.map_map]
      rfl

/-- A write that draws is a write with a legal height. -/
private theorem exists_level (hmax : 1 ≤ m.opts.maxLevel) (draws : ℕ → Bool) (pos : ℕ) (op : Op) :
    ∃ (level pos' : ℕ), 1 ≤ level ∧ (level : Int) ≤ m.opts.maxLevel ∧
      applyDrawn draws (m, pos) op = (m.apply op level).map fun m' => (m', pos') := by
  rcases applyDrawn_eq m op with h | h
  · exact ⟨1, pos, le_refl 1, hmax, h draws pos 1⟩
  · obtain ⟨h1, hle⟩ := randomLevel_legal draws hmax pos
    exact ⟨_, _, h1, hle, h draws pos⟩

/-- **A run that draws is a run with legal heights.** -/
theorem exists_levels {l : List Entry} (hm : Models m l) (hmax : 1 ≤ m.opts.maxLevel)
    (draws : ℕ → Bool) (pos : ℕ) (ops : List Op) :
    ∃ ps m' pos', ps.map Prod.fst = ops ∧
      (∀ p ∈ ps, 1 ≤ p.2 ∧ (p.2 : Int) ≤ m.opts.maxLevel) ∧ m.run ps = some m' ∧
      runDrawn draws (m, pos) ops = some (m', pos') := by
  induction ops generalizing m l pos with
  | nil => exact ⟨[], m, pos, rfl, by simp, rfl, rfl⟩
  | cons op ops ih =>
    obtain ⟨level, pos₁, h1, hle, hdrawn⟩ := exists_level hmax draws pos op
    obtain ⟨m₁, happly, hopts, hm₁⟩ := hm.apply op h1 hle
    obtain ⟨ps, m', pos', hps, hlegal, hrun, hrunDrawn⟩ := ih hm₁ (hopts ▸ hmax) pos₁
    rw [happly, Option.map_some] at hdrawn
    refine ⟨(op, level) :: ps, m', pos', by rw [List.map_cons, hps], ?_, ?_, ?_⟩
    · intro p hp
      rcases List.mem_cons.mp hp with rfl | hp
      · exact ⟨h1, hle⟩
      · exact hopts ▸ hlegal p hp
    · rw [run, List.foldlM_cons, happly]
      exact hrun
    · rw [runDrawn, List.foldlM_cons, hdrawn]
      exact hrunDrawn

/-- **A run with legal heights is a run that draws them.** -/
theorem exists_bits {l : List Entry} (hm : Models m l) {ps : List (Op × ℕ)}
    (hlegal : ∀ p ∈ ps, 1 ≤ p.2 ∧ (p.2 : Int) ≤ m.opts.maxLevel) (hrun : m.run ps = some m') :
    ∃ bits, ∀ draws pos, Begins draws pos bits →
      runDrawn draws (m, pos) (ps.map Prod.fst) = some (m', pos + bits.length) := by
  induction ps generalizing m l with
  | nil => exact ⟨[], fun draws pos _ => by rw [← Option.some.inj hrun]; rfl⟩
  | cons p ps ih =>
    obtain ⟨h1, hle⟩ := hlegal p (by simp)
    obtain ⟨m₁, happly, hopts, hm₁⟩ := hm.apply p.1 h1 hle
    rw [run, List.foldlM_cons, happly] at hrun
    obtain ⟨bits, hbits⟩ := ih hm₁ (fun q hq => hopts ▸ hlegal q (by simp [hq])) hrun
    have hcons : ∀ draws pos, runDrawn draws (m, pos) ((p :: ps).map Prod.fst) =
        (applyDrawn draws (m, pos) p.1).bind fun s => runDrawn draws s (ps.map Prod.fst) :=
      fun _ _ => rfl
    rcases applyDrawn_eq m p.1 with h | h
    · -- nothing is drawn
      refine ⟨bits, fun draws pos hbegin => ?_⟩
      rw [hcons, h draws pos p.2, happly]
      exact hbits draws pos hbegin
    · refine ⟨bitsOf p.2 ++ bits, fun draws pos hbegin => ?_⟩
      have hrest := hbegin.right
      rw [length_bitsOf h1] at hrest
      rw [hcons, h draws pos, randomLevel_bitsOf h1 hle hbegin.left, happly, List.length_append,
        length_bitsOf h1, ← Nat.add_assoc]
      exact hbits draws _ hrest

/-- **Random heights.**  Whatever numbers are drawn, no sequence of writes on a fresh table panics,
    and `Get` answers for every key what the last write on it wrote.  The tables that the writes
    can lead to are exactly those that they lead to with heights in `1..MaxLevel`. -/
theorem drawn_runs (opts : MemTableOptions) (ops : List Op) :
    (∀ draws, ∃ m pos, runDrawn draws (newMemTable opts, 0) ops = some (m, pos) ∧
      ∀ key, m.get key = some (written (lastWrite ops key))) ∧
    ∀ m, (∃ draws pos, runDrawn draws (newMemTable opts, 0) ops = some (m, pos)) ↔
      ∃ ps, ps.map Prod.fst = ops ∧
        (∀ p ∈ ps, 1 ≤ p.2 ∧ (p.2 : Int) ≤ (newMemTable opts).opts.maxLevel) ∧
        (newMemTable opts).run ps = some m := by
  have hmax : 1 ≤ (newMemTable opts).opts.maxLevel := by
    show 1 ≤ if opts.maxLevel ≤ 0 then defaultMaxLevel else opts.maxLevel
    split
    · decide
    · omega
  refine ⟨fun draws => ?_, fun m => ⟨?_, ?_⟩⟩
  · obtain ⟨ps, m, pos, hps, hlegal, hrun, hdrawn⟩ :=
      exists_levels (models_new opts) hmax draws 0 ops
    obtain ⟨m', hrun', hm⟩ := models_run opts ps hlegal
    obtain rfl := Option.some.inj (hrun.symm.trans hrun')
    rw [hps] at hm
    exact ⟨m, pos, hdrawn, hm.get_contents⟩
  · rintro ⟨draws, pos, hdrawn⟩
    obtain ⟨ps, m', pos', hps, hlegal, hrun, hdrawn'⟩ :=
      exists_levels (models_new opts) hmax draws 0 ops
    obtain ⟨rfl, rfl⟩ := Prod.mk.inj (Option.some.inj (hdrawn.symm.trans hdrawn'))
    exact ⟨ps, hps, hlegal, hrun⟩
  · rintro ⟨ps, rfl, hlegal, hrun⟩
    obtain ⟨bits, hbits⟩ := exists_bits (models_new opts) hlegal hrun
    refine ⟨fun i => bits.getD i false, _, hbits _ 0 fun i hi => ?_⟩
    simp [hi]

end MemTable

end Hallownest.Storage
