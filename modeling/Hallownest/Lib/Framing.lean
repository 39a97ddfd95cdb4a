import Hallownest.Lib.Bytes
import Mathlib.Logic.Relation

namespace Framing

/-!
# Framed byte streams

A stream of frames is read by a loop that takes one frame at a time off the front, until the
stream ends or a frame is bad.

* `decode next` — the loop, for a function `next` that reads one frame.
* `Format` — what relates `next` to an encoder: a whole frame is read off the front.
* `decode_frames` — the loop reads back a concatenation of frames, whatever ends the loop
  behind them.
* `Chain next bs items rest` — reading `items` off the front of `bs` leaves `rest`; the loop
  goes on behind a chain as it would start there (`Chain.decode`), and reads a chain up to
  where the reader stops or fails (`Advances.exists_chain`).
* `take_frames` — a cut of a concatenation of frames is a number of whole frames and possibly
  a cut one.
* `serve next handle` — the loop of a server, which handles each item before it reads the next
  one; `serve_frames` — on a concatenation of frames it handles the items in order;
  `serve_error_iff` — it fails exactly if a round fails that is reached.
-/

variable {α β ε σ : Type}

/-- What comes next in a stream. -/
inductive Next (β ε : Type)
  | stop
  | fail (e : ε)
  | item (b : β) (rest : Bytes)
  deriving DecidableEq

/-- At most `fuel` rounds of the loop: the items read, and the error it ended with. -/
def rounds (next : Bytes → Next β ε) : ℕ → Bytes → List β × Option ε
  | 0, _ => ([], none)
  | fuel + 1, bs =>
    match next bs with
    | .stop => ([], none)
    | .fail e => ([], some e)
    | .item b rest => ((b :: (rounds next fuel rest).1), (rounds next fuel rest).2)

/-- The loop.  A frame is not empty, so there are no more rounds than bytes. -/
def decode (next : Bytes → Next β ε) (bs : Bytes) : List β × Option ε :=
  rounds next bs.length bs

/-- The reader `next` reads what the encoder `enc` writes, for the `ok` items; `view` is what
    it makes of an item. -/
structure Format (next : Bytes → Next β ε) (enc : α → Bytes) (view : α → β) (ok : α → Prop) :
    Prop where
  nonempty : ∀ {a}, ok a → enc a ≠ []
  whole : ∀ {a}, ok a → ∀ rest, next (enc a ++ rest) = .item (view a) rest

variable {next : Bytes → Next β ε} {enc : α → Bytes} {view : α → β} {ok : α → Prop}

/-- The frames of a list of items. -/
def frames (enc : α → Bytes) (as : List α) : Bytes := as.flatMap enc

@[simp] theorem frames_nil : frames enc [] = [] := rfl

@[simp] theorem frames_cons (a : α) (as : List α) : frames enc (a :: as) = enc a ++ frames enc as :=
  rfl

@[simp] theorem frames_append (as bs : List α) :
    frames enc (as ++ bs) = frames enc as ++ frames enc bs := List.flatMap_append

theorem rounds_frames (hf : Format next enc view ok) {t : Bytes} (ht : next t = .stop) :
    ∀ (as : List α) (fuel : ℕ), (∀ a ∈ as, ok a) → (frames enc as ++ t).length ≤ fuel →
      rounds next fuel (frames enc as ++ t) = (as.map view, none) := by
  intro as
  induction as with
  | nil =>
    intro fuel _ _
    cases fuel with
    | zero => rfl
    | succ fuel => simp [rounds, ht]
  | cons a as ih =>
    intro fuel hok hfuel
    have ha := hok a (by simp)
    have hpos : 0 < (enc a).length := List.length_pos_iff.mpr (hf.nonempty ha)
    rw [frames_cons, List.append_assoc, List.length_append] at hfuel
    obtain ⟨fuel, rfl⟩ : ∃ f, fuel = f + 1 := ⟨fuel - 1, by omega⟩
    have hrest := ih fuel (fun b hb => hok b (by simp [hb])) (by omega)
    rw [frames_cons, List.append_assoc, rounds, hf.whole ha]
    simp [hrest]

/-- **The loop reads back whole frames** and ends where `next` stops. -/
theorem decode_frames (hf : Format next enc view ok) {as : List α} (hok : ∀ a ∈ as, ok a)
    {t : Bytes} (ht : next t = .stop) :
    decode next (frames enc as ++ t) = (as.map view, none) :=
  rounds_frames hf ht as _ hok (le_refl _)

/-- Number of frames that lie wholly within the first `n` bytes. -/
def wholeFrames (enc : α → Bytes) : List α → ℕ → ℕ
  | [], _ => 0
  | a :: as, n => if (enc a).length ≤ n then wholeFrames enc as (n - (enc a).length) + 1 else 0

/-- **A cut of a concatenation of frames.** -/
theorem take_frames (enc : α → Bytes) (as : List α) (n : ℕ) :
    ∃ t, (frames enc as).take n = frames enc (as.take (wholeFrames enc as n)) ++ t ∧
      (t = [] ∨ ∃ a ∈ as, t <+: enc a ∧ t ≠ enc a) := by
  induction as generalizing n with
  | nil => exact ⟨[], by simp [wholeFrames], Or.inl rfl⟩
  | cons a as ih =>
    unfold wholeFrames
    by_cases hn : (enc a).length ≤ n
    · obtain ⟨t, ht, hcut⟩ := ih (n - (enc a).length)
      refine ⟨t, ?_, hcut.imp_right fun ⟨b, hb, h⟩ => ⟨b, by simp [hb], h⟩⟩
      rw [if_pos hn, List.take_succ_cons, frames_cons, frames_cons, List.append_assoc, ← ht,
        List.take_append, List.take_of_length_le hn]
    · -- the cut is inside the first frame
      refine ⟨(enc a).take n, ?_, Or.inr ⟨a, by simp, List.take_prefix _ _, ?_⟩⟩
      · rw [if_neg hn, List.take_zero, frames_nil, List.nil_append, frames_cons,
          List.take_append_of_le_length (by omega)]
      · intro heq
        have := congrArg List.length heq
        rw [List.length_take] at this
        omega

/-! ### What the loop has read -/

/-- A reader that stops at the end of the stream, and whose frames are not empty. -/
structure Advances (next : Bytes → Next β ε) : Prop where
  nil : next [] = .stop
  shrinks : ∀ {bs b rest}, next bs = .item b rest → rest.length < bs.length

/-- As many rounds as there are bytes are enough. -/
theorem Advances.rounds_congr (h : Advances next) : ∀ (n m : ℕ) (bs : Bytes),
    bs.length ≤ n → bs.length ≤ m → rounds next n bs = rounds next m bs := by
  -- an empty stream ends every loop
  have hempty : ∀ (n : ℕ) (bs : Bytes), bs.length ≤ 0 → rounds next n bs = ([], none) := by
    intro n bs hlen
    rw [List.eq_nil_of_length_eq_zero (Nat.le_zero.mp hlen)]
    cases n with
    | zero => rfl
    | succ n => rw [rounds, h.nil]
  intro n
  induction n with
  | zero =>
    intro m bs hn _
    rw [hempty 0 bs hn, hempty m bs hn]
  | succ n ih =>
    intro m bs hn hm
    cases m with
    | zero => rw [hempty 0 bs hm, hempty (n + 1) bs hm]
    | succ m =>
      rw [rounds, rounds]
      cases hnext : next bs with
      | stop => rfl
      | fail e => rfl
      | item b rest =>
        have hlt := h.shrinks hnext
        simp only [ih m rest (by omega) (by omega)]

theorem Advances.decode_stop (h : Advances next) {bs : Bytes} (hnext : next bs = .stop) :
    decode next bs = ([], none) := by
  rw [decode, h.rounds_congr _ (bs.length + 1) bs (le_refl _) (by omega), rounds, hnext]

theorem Advances.decode_fail (h : Advances next) {bs : Bytes} {e : ε} (hnext : next bs = .fail e) :
    decode next bs = ([], some e) := by
  rw [decode, h.rounds_congr _ (bs.length + 1) bs (le_refl _) (by omega), rounds, hnext]

theorem Advances.decode_item (h : Advances next) {bs rest : Bytes} {b : β}
    (hnext : next bs = .item b rest) :
    decode next bs = (b :: (decode next rest).1, (decode next rest).2) := by
  have hlt := h.shrinks hnext
  rw [decode, h.rounds_congr _ (bs.length + 1) bs (le_refl _) (by omega), rounds, hnext]
  dsimp only
  rw [h.rounds_congr bs.length rest.length rest (by omega) (le_refl _)]
  rfl

/-- Reading the frames of `items` off the front of a stream leaves `rest`. -/
inductive Chain (next : Bytes → Next β ε) : Bytes → List β → Bytes → Prop
  | nil (bs : Bytes) : Chain next bs [] bs
  | cons {bs mid rest : Bytes} {b : β} {items : List β} (head : next bs = .item b mid)
      (tail : Chain next mid items rest) : Chain next bs (b :: items) rest

/-- Whole frames make a chain. -/
theorem chain_frames (hf : Format next enc view ok) (as : List α) (hok : ∀ a ∈ as, ok a)
    (t : Bytes) : Chain next (frames enc as ++ t) (as.map view) t := by
  induction as with
  | nil => exact .nil t
  | cons a as ih =>
    refine .cons ?_ (ih fun b hb => hok b (by simp [hb]))
    rw [frames_cons, List.append_assoc]
    exact hf.whole (hok a (by simp)) _

/-- What holds of every item that can be read holds along a chain. -/
theorem Chain.forall_items {P : β → Prop} (h : ∀ {bs b rest}, next bs = .item b rest → P b)
    {bs rest : Bytes} {items : List β} (hchain : Chain next bs items rest) : ∀ b ∈ items, P b := by
  induction hchain with
  | nil => simp
  | cons head _ ih => exact List.forall_mem_cons.mpr ⟨h head, ih⟩

/-- **The loop goes on behind a chain** as it would start there. -/
theorem Chain.decode {bs rest : Bytes} {items : List β} (hchain : Chain next bs items rest)
    (h : Advances next) :
    decode next bs = (items ++ (decode next rest).1, (decode next rest).2) := by
  induction hchain with
  | nil bs => rfl
  | cons head _ ih => rw [h.decode_item head, ih]; rfl

/-- **The loop reads a chain** and ends where the reader stops or fails. -/
theorem Advances.exists_chain (h : Advances next) (bs : Bytes) :
    ∃ rest, Chain next bs (Framing.decode next bs).1 rest ∧
      ((Framing.decode next bs).2 = none ∧ next rest = .stop ∨
        ∃ e, (Framing.decode next bs).2 = some e ∧ next rest = .fail e) := by
  induction hn : bs.length using Nat.strong_induction_on generalizing bs with
  | _ n ih =>
    cases hnext : next bs with
    | stop =>
      rw [h.decode_stop hnext]
      exact ⟨bs, .nil bs, Or.inl ⟨rfl, hnext⟩⟩
    | fail e =>
      rw [h.decode_fail hnext]
      exact ⟨bs, .nil bs, Or.inr ⟨e, rfl, hnext⟩⟩
    | item b mid =>
      have hlt := h.shrinks hnext
      obtain ⟨rest, hchain, hend⟩ := ih mid.length (by omega) mid rfl
      rw [h.decode_item hnext]
      exact ⟨rest, .cons hnext hchain, hend⟩

/-! ### Handling the items -/

/-- At most `fuel` rounds of the loop of a server. -/
def serve (next : Bytes → Next β ε) (handle : σ → β → Except ε σ) : ℕ → σ → Bytes → Except ε σ
  | 0, s, _ => .ok s
  | fuel + 1, s, bs =>
    match next bs with
    | .stop => .ok s
    | .fail e => .error e
    | .item b rest => handle s b >>= fun s => serve next handle fuel s rest

variable {handle : σ → β → Except ε σ}

/-- **The loop handles whole frames in order** and ends where `next` stops. -/
theorem serve_frames (hf : Format next enc view ok) {t : Bytes} (ht : next t = .stop) :
    ∀ (as : List α) (fuel : ℕ) (s : σ), (∀ a ∈ as, ok a) →
      (frames enc as ++ t).length ≤ fuel →
      serve next handle fuel s (frames enc as ++ t) =
        as.foldlM (fun s a => handle s (view a)) s := by
  intro as
  induction as with
  | nil =>
    intro fuel s _ _
    cases fuel with
    | zero => rfl
    | succ fuel => simp [serve, ht]; rfl
  | cons a as ih =>
    intro fuel s hok hfuel
    have ha := hok a (by simp)
    have hpos : 0 < (enc a).length := List.length_pos_iff.mpr (hf.nonempty ha)
    rw [frames_cons, List.append_assoc, List.length_append] at hfuel
    obtain ⟨fuel, rfl⟩ : ∃ f, fuel = f + 1 := ⟨fuel - 1, by omega⟩
    rw [frames_cons, List.append_assoc, serve, hf.whole ha, List.foldlM_cons]
    show (handle s (view a) >>= fun s => serve next handle fuel s (frames enc as ++ t)) = _
    congr 1
    funext s'
    exact ih fuel s' (fun b hb => hok b (by simp [hb])) (by omega)

/-- A whole round of the loop: an item is read and handled. -/
def Round (next : Bytes → Next β ε) (handle : σ → β → Except ε σ) (p q : σ × Bytes) : Prop :=
  ∃ b, next p.2 = .item b q.2 ∧ handle p.1 b = .ok q.1

/-- The round at `p` fails with `e`. -/
def Fails (next : Bytes → Next β ε) (handle : σ → β → Except ε σ) (e : ε) (p : σ × Bytes) :
    Prop :=
  next p.2 = .fail e ∨ ∃ b rest, next p.2 = .item b rest ∧ handle p.1 b = .error e

/-- A failing round is reached if this round fails, or one that is reached from the next. -/
theorem reaches_fails {e : ε} {p : σ × Bytes} :
    (∃ q, Relation.ReflTransGen (Round next handle) p q ∧ Fails next handle e q) ↔
      Fails next handle e p ∨ ∃ p', Round next handle p p' ∧
        ∃ q, Relation.ReflTransGen (Round next handle) p' q ∧ Fails next handle e q := by
  constructor
  · rintro ⟨q, hq, hfail⟩
    rcases Relation.ReflTransGen.cases_head hq with rfl | ⟨p', hround, hq⟩
    · exact Or.inl hfail
    · exact Or.inr ⟨p', hround, q, hq, hfail⟩
  · rintro (hfail | ⟨p', hround, q, hq, hfail⟩)
    · exact ⟨p, .refl, hfail⟩
    · exact ⟨q, .head hround hq, hfail⟩

/-- **The loop fails** exactly if a round fails that is reached through whole rounds. -/
theorem serve_error_iff (hnil : next [] = .stop)
    (hshrink : ∀ {bs b rest}, next bs = .item b rest → rest.length < bs.length) {e : ε} :
    ∀ (fuel : ℕ) (s : σ) (bs : Bytes), bs.length ≤ fuel →
      (serve next handle fuel s bs = .error e ↔
        ∃ q, Relation.ReflTransGen (Round next handle) (s, bs) q ∧ Fails next handle e q) := by
  intro fuel
  induction fuel with
  | zero =>
    intro s bs hfuel
    obtain rfl : bs = [] := List.eq_nil_of_length_eq_zero (by omega)
    rw [reaches_fails]
    simp [serve, Fails, Round, hnil]
  | succ fuel ih =>
    intro s bs hfuel
    rw [serve, reaches_fails]
    cases hnext : next bs with
    | stop => simp [Fails, Round, hnext]
    | fail e' => simp [Fails, Round, hnext]
    | item b rest =>
      have hlt := hshrink hnext
      show (handle s b >>= fun s => serve next handle fuel s rest) = .error e ↔ _
      cases hhandle : handle s b with
      | error e' =>
        simp [Fails, Round, hnext, hhandle, bind, Except.bind]
      | ok s' =>
        have hrest := ih s' rest (by omega)
        simpa [Fails, Round, hnext, hhandle, bind, Except.bind] using hrest

end Framing
