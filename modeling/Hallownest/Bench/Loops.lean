import Hallownest.Bench.Recovery
import Hallownest.Damage

namespace Hallownest.Bench

/-!
# Bench — the two reading loops

`Recover` and `ReplayWAL` decode the log with one loop each, of which one is a copy of the other
up to what is done with a record: `Recover` copies key and value into buffers of the announced
lengths and collects the records, `ReplayWAL` cuts them out of the body and calls `applyFn`.

Here the loops are translated one statement after the other, each for itself.  A round of either
is a round of `readRecord` (`recoverRound_eq`, `replayRound_eq`), so the loops are those of
`WAL.recover` and `replayWAL` (`recoverLoop_eq`, `replayLoop_eq`), and they agree on every file
(`loops_agree`).
-/

/-! ### `Recover` -/

/-- The buffer `checkBuf`: the header behind the checksum, and the body. -/
def checkBuf (headerBuf bodyBuf : Bytes) (bodyLen : ℕ) : Option Bytes := do
  let buf : Bytes := List.replicate (uint32 (9 + bodyLen)) 0
  let buf ← Bytes.blit buf 0 9 (headerBuf.drop 4)
  Bytes.blit buf 9 buf.length bodyBuf

/-- One round of the loop in `Recover`. -/
def recoverRound (bs : Bytes) : Framing.Next LogEntry ReadError :=
  match Bytes.readFull headerSize bs with
  | none => .stop
  | some (headerBuf, bs) =>
    let expectedCRC := BitVec.ofNat 32 (Bytes.ofBe (headerBuf.take 4))
    let keyLen := Bytes.ofBe ((headerBuf.drop 4).take 4)
    let valLen := Bytes.ofBe ((headerBuf.drop 8).take 4)
    let tombstone := headerBuf[12]? == some 1
    let bodyLen := uint32 (keyLen + valLen)
    match Bytes.readFull bodyLen bs with
    | none => .stop
    | some (bodyBuf, rest) =>
      match checkBuf headerBuf bodyBuf bodyLen with
      | none => .fail .panic
      | some checkBuf =>
        let actualCRC := Crc32.checksum checkBuf
        if expectedCRC ≠ actualCRC then .fail (.crcMismatch expectedCRC actualCRC)
        else
          match Slice.upTo bodyBuf keyLen, Slice.after bodyBuf keyLen with
          | some keyBytes, some valBytes =>
            -- `make` and `copy`
            let key := Bytes.blit (List.replicate keyLen 0) 0 keyLen keyBytes
            let val := Bytes.blit (List.replicate valLen 0) 0 valLen valBytes
            match key, val with
            | some key, some val => .item ⟨expectedCRC, key, val, tombstone⟩ rest
            | _, _ => .fail .panic
          | _, _ => .fail .panic

/-- The loop in `Recover`, at most `fuel` rounds. -/
def recoverLoop : ℕ → List LogEntry → Bytes → Except ReadError (List LogEntry)
  | 0, entries, _ => .ok entries
  | fuel + 1, entries, bs =>
    match recoverRound bs with
    | .stop => .ok entries
    | .fail e => .error e
    | .item l rest => recoverLoop fuel (entries ++ [l]) rest

/-- Read the log from its beginning (`Recover`), with its own loop. -/
def WAL.recoverEntries (w : WAL) : Except WALError (List LogEntry) :=
  if w.closed then .error .closed
  else
    match recoverLoop w.file.length [] w.file with
    | .ok entries => .ok entries
    | .error e => .error (.read e)

/-! ### `ReplayWAL` -/

/-- One round of the loop in `ReplayWAL`; an item is the arguments of a call of `applyFn`. -/
def replayRound (bs : Bytes) : Framing.Next Entry ReadError :=
  match Bytes.readFull headerSize bs with
  | none => .stop
  | some (headerBuf, bs) =>
    let expectedCRC := BitVec.ofNat 32 (Bytes.ofBe (headerBuf.take 4))
    let keyLen := Bytes.ofBe ((headerBuf.drop 4).take 4)
    let valLen := Bytes.ofBe ((headerBuf.drop 8).take 4)
    let tombstone := headerBuf[12]? == some 1
    let bodyLen := uint32 (keyLen + valLen)
    match Bytes.readFull bodyLen bs with
    | none => .stop
    | some (bodyBuf, rest) =>
      match checkBuf headerBuf bodyBuf bodyLen with
      | none => .fail .panic
      | some checkBuf =>
        let actualCRC := Crc32.checksum checkBuf
        if expectedCRC ≠ actualCRC then .fail (.crcMismatch expectedCRC actualCRC)
        else
          match Slice.upTo bodyBuf keyLen, Slice.after bodyBuf keyLen with
          | some key, some val => .item ⟨key, val, tombstone⟩ rest
          | _, _ => .fail .panic

/-- What `ReplayWAL` has done: the calls of `applyFn`, and `replayedCount`. -/
structure Replayed where
  applied : List Entry
  replayedCount : ℕ
  deriving DecidableEq, Repr

/-- The loop over one file in `ReplayWAL`, at most `fuel` rounds. -/
def replayLoop : ℕ → Replayed → Bytes → Replayed × Option ReadError
  | 0, r, _ => (r, none)
  | fuel + 1, r, bs =>
    match replayRound bs with
    | .stop => (r, none)
    | .fail e => (r, some e)
    | .item e rest =>
      replayLoop fuel { applied := r.applied ++ [e], replayedCount := r.replayedCount + 1 } rest

/-- The loop over the files in `ReplayWAL`. -/
def replaySegments : List DirEntry → Replayed → Replayed × Option ReadError
  | [], r => (r, none)
  | f :: fs, r =>
    match replayLoop f.data.length r f.data with
    | (r, some e) => (r, some e)
    | (r, none) => replaySegments fs r

/-- Replay every log file of a directory (`ReplayWAL`), with its own loop. -/
def replayCalls : Option (List DirEntry) → Replayed × Option ReadError
  | none => ({ applied := [], replayedCount := 0 }, none)
  | some dir =>
    replaySegments ((dir.filter isWAL).mergeSort fun f g => decide (f.name ≤ g.name))
      { applied := [], replayedCount := 0 }

/-! ### One round -/

/-- The check buffer is what stands in the file, unless its length wraps around. -/
private theorem checkBuf_eq {headerBuf bodyBuf : Bytes} (hheader : headerBuf.length = headerSize)
    (hlt : bodyBuf.length < 2 ^ 32) :
    checkBuf headerBuf bodyBuf bodyBuf.length =
      if uint32 (9 + bodyBuf.length) < 9 then none else some (headerBuf.drop 4 ++ bodyBuf) := by
  have hnine : (headerBuf.drop 4).length = 9 := by rw [List.length_drop, hheader]; rfl
  unfold checkBuf
  dsimp only
  by_cases hwrap : uint32 (9 + bodyBuf.length) < 9
  · rw [if_pos hwrap, Bytes.blit, if_neg (by rw [List.length_replicate]; omega)]
    rfl
  · have hlen : uint32 (9 + bodyBuf.length) = 9 + bodyBuf.length := by
      unfold uint32 at hwrap ⊢
      omega
    have hfirst : Bytes.blit (List.replicate (9 + bodyBuf.length) 0) 0 9 (headerBuf.drop 4) =
        some (headerBuf.drop 4 ++ List.replicate bodyBuf.length 0) := by
      rw [List.replicate_add]
      exact Bytes.blit_append [] (List.replicate 9 0) _ _ rfl rfl (by rw [hnine]; rfl)
    have hsecond := Bytes.blit_append (headerBuf.drop 4) (List.replicate bodyBuf.length 0) []
      bodyBuf hnine.symm rfl (by rw [List.length_replicate])
    rw [List.append_nil, List.append_nil, ← List.length_append] at hsecond
    rw [if_neg hwrap, hlen, hfirst]
    exact hsecond

/-- The check buffer in a round that has read a header and a body. -/
theorem checkBuf_read {bs headerBuf tail bodyBuf rest : Bytes} {keyLen valLen : ℕ}
    (hhead : Bytes.readFull headerSize bs = some (headerBuf, tail))
    (hbody : Bytes.readFull (uint32 (keyLen + valLen)) tail = some (bodyBuf, rest)) :
    checkBuf headerBuf bodyBuf (uint32 (keyLen + valLen)) =
      if uint32 (9 + uint32 (keyLen + valLen)) < 9 then none
      else some (headerBuf.drop 4 ++ bodyBuf) := by
  obtain ⟨hheader, _⟩ := Bytes.readFull_eq_some hhead
  obtain ⟨hlen, _⟩ := Bytes.readFull_eq_some hbody
  have hlt : bodyBuf.length < 2 ^ 32 := hlen ▸ Nat.mod_lt _ (by decide)
  rw [← hlen, checkBuf_eq hheader hlt]

/-- A buffer that is filled completely holds what was copied into it. -/
theorem blit_replicate (src : Bytes) {n : ℕ} (h : src.length = n) :
    Bytes.blit (List.replicate n 0) 0 n src = some src := by
  subst h
  simp [Bytes.blit]

/-- **A round of `Recover`** is a round of `readRecord`. -/
theorem recoverRound_eq (bs : Bytes) : recoverRound bs = readRecord bs := by
  unfold recoverRound readRecord
  cases hhead : Bytes.readFull headerSize bs with
  | none => rfl
  | some p =>
    obtain ⟨headerBuf, tail⟩ := p
    dsimp only
    generalize hkey : Bytes.ofBe ((headerBuf.drop 4).take 4) = keyLen
    generalize hval : Bytes.ofBe ((headerBuf.drop 8).take 4) = valLen
    have hk : keyLen < 256 ^ 4 := hkey ▸ Bytes.ofBe_take_lt 4 _
    have hv : valLen < 256 ^ 4 := hval ▸ Bytes.ofBe_take_lt 4 _
    cases hbody : Bytes.readFull (uint32 (keyLen + valLen)) tail with
    | none => rfl
    | some q =>
      obtain ⟨bodyBuf, rest⟩ := q
      dsimp only
      obtain ⟨hlen, _⟩ := Bytes.readFull_eq_some hbody
      rw [checkBuf_read hhead hbody, ← hlen]
      by_cases hwrap : uint32 (9 + bodyBuf.length) < 9
      · rw [if_pos hwrap, if_pos hwrap]
      · rw [if_neg hwrap, if_neg hwrap]
        dsimp only
        split
        · rfl
        · by_cases hcut : bodyBuf.length < keyLen
          · rw [if_pos hcut, Slice.upTo_of_gt (by omega)]
          · have hsum : bodyBuf.length = keyLen + valLen := by
              unfold uint32 at hlen
              omega
            rw [if_neg hcut, Slice.upTo_of_le (by omega) (by omega),
              Slice.after_of_le (by omega) (by omega), Int.toNat_natCast]
            dsimp only
            rw [blit_replicate _ (by rw [List.length_take]; omega),
              blit_replicate _ (by rw [List.length_drop]; omega)]

/-- The arguments of the call of `applyFn` for what was read. -/
def callOf : Framing.Next LogEntry ReadError → Framing.Next Entry ReadError
  | .stop => .stop
  | .fail e => .fail e
  | .item l rest => .item l.entry rest

/-- **A round of `ReplayWAL`** is a round of `readRecord`. -/
theorem replayRound_eq (bs : Bytes) : replayRound bs = callOf (readRecord bs) := by
  unfold replayRound readRecord
  cases hhead : Bytes.readFull headerSize bs with
  | none => rfl
  | some p =>
    obtain ⟨headerBuf, tail⟩ := p
    dsimp only
    cases hbody : Bytes.readFull (uint32 (Bytes.ofBe ((headerBuf.drop 4).take 4) +
        Bytes.ofBe ((headerBuf.drop 8).take 4))) tail with
    | none => rfl
    | some q =>
      obtain ⟨bodyBuf, rest⟩ := q
      dsimp only
      obtain ⟨hlen, _⟩ := Bytes.readFull_eq_some hbody
      rw [checkBuf_read hhead hbody, ← hlen]
      by_cases hwrap : uint32 (9 + bodyBuf.length) < 9
      · rw [if_pos hwrap, if_pos hwrap]
        rfl
      · rw [if_neg hwrap, if_neg hwrap]
        dsimp only
        split
        · rfl
        · by_cases hcut : bodyBuf.length < Bytes.ofBe ((headerBuf.drop 4).take 4)
          · rw [if_pos hcut, Slice.upTo_of_gt (by omega)]
            rfl
          · rw [if_neg hcut, Slice.upTo_of_le (by omega) (by omega),
              Slice.after_of_le (by omega) (by omega), Int.toNat_natCast]
            rfl

/-! ### The loops -/

/-- **The loop of `Recover`** collects what the rounds of `readRecord` read. -/
theorem recoverLoop_eq : ∀ (fuel : ℕ) (entries : List LogEntry) (bs : Bytes),
    recoverLoop fuel entries bs =
      ((Framing.rounds readRecord fuel bs).2.elim
        (.ok (entries ++ (Framing.rounds readRecord fuel bs).1)) .error) := by
  intro fuel
  induction fuel with
  | zero => intro entries bs; simp [recoverLoop, Framing.rounds]
  | succ fuel ih =>
    intro entries bs
    rw [recoverLoop, Framing.rounds, recoverRound_eq]
    cases readRecord bs with
    | stop => simp
    | fail e => simp
    | item l rest => simp [ih]

/-- **The loop of `ReplayWAL`** calls `applyFn` on them. -/
theorem replayLoop_eq : ∀ (fuel : ℕ) (r : Replayed) (bs : Bytes),
    replayLoop fuel r bs =
      ({ applied := r.applied ++ (Framing.rounds readRecord fuel bs).1.map LogEntry.entry
         replayedCount := r.replayedCount + (Framing.rounds readRecord fuel bs).1.length },
        (Framing.rounds readRecord fuel bs).2) := by
  intro fuel
  induction fuel with
  | zero => intro r bs; simp [replayLoop, Framing.rounds]
  | succ fuel ih =>
    intro r bs
    rw [replayLoop, Framing.rounds, replayRound_eq]
    cases readRecord bs with
    | stop => simp [callOf]
    | fail e => simp [callOf]
    | item l rest =>
      simp only [callOf, ih, List.map_cons, List.append_assoc, List.singleton_append,
        List.length_cons]
      congr 2
      omega

theorem recoverEntries_eq (w : WAL) : w.recoverEntries = w.recover := by
  unfold WAL.recoverEntries WAL.recover
  rw [recoverLoop_eq]
  show (if w.closed = true then _ else _) = if w.closed = true then _ else _
  split
  · rfl
  · unfold Framing.decode
    obtain ⟨items, err⟩ := Framing.rounds readRecord w.file.length w.file
    cases err <;> rfl

theorem replaySegments_eq (fs : List DirEntry) (r : Replayed) :
    replaySegments fs r =
      ({ applied := r.applied ++ (replayFiles fs).applied.map LogEntry.entry
         replayedCount := r.replayedCount + (replayFiles fs).replayedCount },
        (replayFiles fs).err) := by
  induction fs generalizing r with
  | nil => simp [replaySegments, replayFiles]
  | cons f fs ih =>
    rw [replaySegments, replayLoop_eq, replayFiles]
    unfold Framing.decode
    obtain ⟨items, err⟩ := Framing.rounds readRecord f.data.length f.data
    cases err with
    | some e => rfl
    | none => simp [ih, Nat.add_assoc]

theorem replayCalls_eq (dir : List DirEntry) :
    replayCalls (some dir) =
      ({ applied := (replayWAL (some dir)).applied.map LogEntry.entry
         replayedCount := (replayWAL (some dir)).replayedCount },
        (replayWAL (some dir)).err) := by
  rw [replayCalls, replayWAL, replaySegments_eq]
  simp

/-! ### Agreement -/

/-- The replay of a directory with one log file. -/
theorem replayCalls_only {f : DirEntry} {dir : List DirEntry} (hdir : dir.filter isWAL = [f]) :
    replayCalls (some dir) =
      ({ applied := (Framing.decode readRecord f.data).1.map LogEntry.entry
         replayedCount := (Framing.decode readRecord f.data).1.length },
        (Framing.decode readRecord f.data).2) := by
  have hfiles : replayWAL (some dir) = replayFiles [f] := by
    rw [replayWAL, hdir]
    exact congrArg replayFiles (List.mergeSort_singleton _)
  rw [replayCalls_eq, hfiles, replayFiles]
  obtain ⟨items, err⟩ := Framing.decode readRecord f.data
  cases err with
  | none => simp [replayFiles]
  | some e => simp

theorem recoverEntries_open (opts : WALOptions) (file : Bytes) :
    (openWAL opts (some file)).recoverEntries =
      (Framing.decode readRecord file).2.elim (.ok (Framing.decode readRecord file).1)
        fun e => .error (.read e) := by
  rw [recoverEntries_eq]
  simp only [WAL.recover, openWAL, Option.getD_some, Bool.false_eq_true, if_false]
  obtain ⟨items, err⟩ := Framing.decode readRecord file
  cases err <;> rfl

/-- **The two loops agree.**  Let `bench_0.wal` be the only log file of a directory, with any
    contents on which `Recover` does not panic.  `Recover` succeeds exactly if `ReplayWAL` does;
    then `ReplayWAL` counts the entries and has called `applyFn` on them in order.  When they
    fail, both fail at the same record with the same wrong checksum, and `ReplayWAL` has called
    `applyFn` on the records in front of it. -/
theorem loops_agree (opts : WALOptions) (file : Bytes) (dir : List DirEntry)
    (hdir : dir.filter isWAL = walDir file)
    (hpanic : (openWAL opts (some file)).recoverEntries ≠ .error (.read .panic)) :
    ((∃ entries, (openWAL opts (some file)).recoverEntries = .ok entries) ↔
      (replayCalls (some dir)).2 = none) ∧
    (∀ entries, (openWAL opts (some file)).recoverEntries = .ok entries →
      (replayCalls (some dir)).1 =
        { applied := entries.map LogEntry.entry, replayedCount := entries.length }) ∧
    ∀ e, (openWAL opts (some file)).recoverEntries = .error e →
      ∃ front rest expected actual entries, file = front ++ rest ∧
        e = .read (.crcMismatch expected actual) ∧
        (replayCalls (some dir)).2 = some (.crcMismatch expected actual) ∧
        recoverRound rest = .fail (.crcMismatch expected actual) ∧
        replayRound rest = .fail (.crcMismatch expected actual) ∧
        (openWAL opts (some front)).recoverEntries = .ok entries ∧
        (replayCalls (some dir)).1 =
          { applied := entries.map LogEntry.entry, replayedCount := entries.length } := by
  have hreplay := replayCalls_only hdir
  obtain ⟨rest, hchain, hend⟩ := readRecord_advances.exists_chain file
  rw [recoverEntries_open] at hpanic ⊢
  rw [hreplay]
  generalize hitems : (Framing.decode readRecord file).1 = items at hchain hpanic
  rcases hend with ⟨herr, _⟩ | ⟨e, herr, hfail⟩
  · rw [herr]
    refine ⟨⟨fun _ => rfl, fun _ => ⟨items, rfl⟩⟩, ?_, ?_⟩
    · intro entries hok
      cases hok
      rfl
    · intro e he
      cases he
  · rw [herr] at hpanic ⊢
    -- the failure is no panic
    obtain ⟨expected, actual, rfl⟩ : ∃ x y, e = .crcMismatch x y := by
      cases e with
      | panic => exact absurd rfl hpanic
      | crcMismatch x y => exact ⟨x, y, rfl⟩
    refine ⟨⟨?_, ?_⟩, ?_, ?_⟩
    · rintro ⟨entries, hok⟩
      cases hok
    · intro hnone
      cases hnone
    · intro entries hok
      cases hok
    intro e he
    obtain ⟨front, hfile, hfront⟩ := exists_front hchain
    have hdecode : Framing.decode readRecord front = (items, none) := by
      rw [hfront.decode readRecord_advances, readRecord_advances.decode_stop rfl, List.append_nil]
    refine ⟨front, rest, expected, actual, items, hfile, ?_, rfl, ?_, ?_, ?_, rfl⟩
    · exact (Except.error.inj he).symm
    · rw [recoverRound_eq, hfail]
    · rw [replayRound_eq, hfail]
      rfl
    · rw [recoverEntries_open, hdecode]
      rfl

/-- The second record of a log with a changed value. -/
def spoiled : Bytes := (small 3 4).record.set 14 9

/-- A directory with this log, another directory and another file. -/
def spoiledDir : List DirEntry :=
  [⟨['x', '.', 'w', 'a', 'l'], true, []⟩, ⟨['y'], false, [1]⟩] ++
    walDir ((small 1 2).record ++ spoiled)

/-- Both loops fail at the second record. -/
theorem loops_agree_spoiled :
    (openWAL defaultWALOptions (some ((small 1 2).record ++ spoiled))).recoverEntries =
      .error (.read (.crcMismatch (storedCrc spoiled) (frameCrc spoiled))) ∧
    (replayCalls (some spoiledDir)).2 =
      some (.crcMismatch (storedCrc spoiled) (frameCrc spoiled)) := by
  have hrec : (openWAL defaultWALOptions (some ((small 1 2).record ++ spoiled))).recoverEntries =
      .error (.read (.crcMismatch (storedCrc spoiled) (frameCrc spoiled))) := by decide +kernel
  obtain ⟨_, _, hfails⟩ := loops_agree defaultWALOptions ((small 1 2).record ++ spoiled) spoiledDir
    (by decide +kernel) (by rw [hrec]; simp)
  obtain ⟨_, _, x, y, _, _, heq, hreplay, _⟩ := hfails _ hrec
  rw [WALError.read.injEq] at heq
  rw [← heq] at hreplay
  exact ⟨hrec, hreplay⟩

end Hallownest.Bench
