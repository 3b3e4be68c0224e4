/-
  File:      Slightx/Klibc/StrSplit.lean
  Subject:   `str_split`, and the delimiters that split a string into what it is made of.

  Sources: klibc/mem/str.c, klibc/mem/bytes.c, klibc/mem/alloc.c.

  The scan looks at every place of the string, the place inside a match it has just split at
  included. There a second match ends the piece before it starts, and the length of the piece wraps.

  The array of the pieces is a list, and `granted` says which requests for more of it the heap
  grants.

  * `MatchesApart` -- no two matches overlap
  * `SplitInv` -- the scan, by what the matches before its place say
  * `strSplit_exact` -- the pieces lie in the string, make it up and have no delimiter in them for
    the strings whose matches are apart, and for no others
-/
import Slightx.Klibc.Core

namespace Slightx

open Lib

/-! ## 1. Strings in memory -/

/-- `struct str`, by the address of its bytes. -/
structure StrView where
  data : Uptr
  length : Usize
  capacity : Usize
  owned : Bool
  deriving DecidableEq, Repr

/-- A string whose bytes are an object: they do not wrap around the address space, and they lie in
    one half of the canonical addresses, which has `2^56` of them with five levels. -/
structure StrObject extends StrView where
  notNull : data ≠ 0
  small : length.toNat < 2 ^ 56
  inMemory : data.toNat + length.toNat ≤ 2 ^ 64

instance : Coe StrObject StrView := ⟨StrObject.toStrView⟩

def bytesAt (m : Mem) (a n : Nat) : List U8 := (List.range n).map fun i => m (a + i)

def StrView.bytes (m : Mem) (s : StrView) : List U8 := bytesAt m s.data.toNat s.length.toNat

/-- `struct strv`; `items` is `none` for NULL. -/
structure StrvView where
  items : Option (List StrView)
  count : Usize
  deriving DecidableEq, Repr

def strNull : StrView := { data := 0, length := 0, capacity := 0, owned := false }

/-- `sizeof(str)` -/
def STR_SIZE : Usize := 32

section Calls

variable {σ : Type}

/-- The loop of `memcmp` from the bytes at `p` and `q` on. -/
def memcmpFrom (m : Mem) : (n : Nat) → (p q : Nat) → Int
  | 0, _, _ => 0
  | n + 1, p, q =>
      if m p < m q then -1
      else if m q < m p then 1
      else memcmpFrom m n (p + 1) (q + 1)

def memcmp (m : Mem) (a b : Uptr) (n : Usize) : Prog Fault σ Int := do
  assert (a ≠ 0) "a != NULL"
  assert (b ≠ 0) "b != NULL"
  pure (memcmpFrom m n.toNat a.toNat b.toNat)

/-- `str_slice` -/
def strViewSlice (s : StrView) (start length : Usize) : Prog Fault σ StrView := do
  assert (start ≤ s.length) "start <= s.length"
  assert (start + length ≤ s.length) "start + length <= s.length"
  pure { data := s.data + start, length := length, capacity := length, owned := false }

end Calls

/-! ## 2. The split -/

/-- `start` is where the piece that is not yet ended starts. -/
structure SplitState where
  result : StrvView
  start : Usize
  deriving DecidableEq, Repr

abbrev SplitProg := Prog Fault SplitState

/-- The array with room for `count` items: allocated zeroed, or reallocated with what it held. -/
def splitGrow (granted : Nat → Bool) : SplitProg Unit := do
  let st ← get
  let grant := granted st.result.count.toNat
  match st.result.items with
  | none => do
      assertRelease (grant = true) "ptr != NULL"
      set { st with result := { st.result with items := some [strNull] } }
  | some items =>
      let n := (st.result.count * STR_SIZE).toNat / STR_SIZE.toNat
      let grown := items.take n ++ List.replicate (n - items.length) strNull
      set { st with result := { st.result with items := if grant then some grown else none } }

/-- `result.items[result.count - 1] = item;`. A NULL array is not mapped, and a store behind the
    array is none this model goes on from. -/
def splitStore (item : StrView) : SplitProg Unit := do
  let st ← get
  let i := st.result.count - 1
  match st.result.items with
  | none => throw (.pageFault (i * STR_SIZE))
  | some items =>
      if i.toNat < items.length then
        set { st with result := { st.result with items := some (items.set i.toNat item) } }
      else throw (.pageFault (i * STR_SIZE))

/-- `result.count++`, the array grown, and `item` stored at its end. -/
def splitPush (granted : Nat → Bool) (item : StrView) : SplitProg Unit := do
  modify fun st => { st with result := { st.result with count := st.result.count + 1 } }
  splitGrow granted
  splitStore item

/-- A round of the scan. -/
def splitRound (m : Mem) (granted : Nat → Bool) (s delimiter : StrView) (i : Usize) :
    SplitProg Unit := do
  let c ← memcmp m (s.data + i) delimiter.data delimiter.length
  if c = 0 then do
    let st ← get
    let item ← strViewSlice s st.start (i - st.start)
    splitPush granted item
    modify fun st => { st with start := i + delimiter.length }
  else pure ()

/-- What is left after the scan. -/
def splitRest (granted : Nat → Bool) (s : StrView) : SplitProg Unit := do
  let st ← get
  if st.start ≤ s.length then do
    let item ← strViewSlice s st.start (s.length - st.start)
    splitPush granted item
  else pure ()

/-- `for (usize i = 0; i + delimiter.length <= s.length; i++)`, where the sum does not wrap: an
    object has fewer than `2^56` bytes. -/
def splitScan (m : Mem) (granted : Nat → Bool) (s delimiter : StrView) : SplitProg Unit :=
  forUp (s.length.toNat + 1 - delimiter.length.toNat) fun i =>
    splitRound m granted s delimiter (BitVec.ofNat 64 i)

def strSplit (m : Mem) (granted : Nat → Bool) (s delimiter : StrView) : SplitProg StrvView := do
  set { result := { items := none, count := 0 }, start := 0 : SplitState }
  if s.length = 0 then return (← get).result
  else if delimiter.length = 0 then return (← get).result
  else do
    splitScan m granted s delimiter
    splitRest granted s
    return (← get).result

/-! ## 3. What a split is -/

/-- The view lies inside `s`. -/
def StrView.Inside (v s : StrView) : Prop :=
  ∃ k, v.data = s.data + BitVec.ofNat 64 k ∧ k + v.length.toNat ≤ s.length.toNat

/-- **The pieces of `s`**: views of it that joined with the delimiter give it back, and none of them
    contains it. -/
structure SplitOf (m : Mem) (s d : StrView) (result : StrvView) (items : List StrView) : Prop where
  array : result.items = some items
  count : result.count.toNat = items.length
  inside : ∀ v ∈ items, v.Inside s
  joined : List.intercalate (d.bytes m) (items.map (StrView.bytes m)) = s.bytes m
  clear : ∀ v ∈ items, ¬ d.bytes m <:+: v.bytes m

/-- `str_split` returns the pieces, unless the heap refused a request. -/
def Splits (m : Mem) (s d : StrView) : Prop :=
  ∀ granted st, ends (strSplit m granted s d) st
    (fun result _ => ∃ items, SplitOf m s d result items) fun _ => ∃ k, granted k = false

/-- `d` stands at `i` in `xs`. -/
def OccursAt (d xs : List U8) (i : Nat) : Prop := d <+: xs.drop i

/-- **No two occurrences overlap.** -/
def MatchesApart (d xs : List U8) : Prop :=
  ∀ i j, OccursAt d xs i → OccursAt d xs j → i < j → i + d.length ≤ j

instance (d xs : List U8) (i : Nat) : Decidable (OccursAt d xs i) :=
  inferInstanceAs (Decidable (d <+: xs.drop i))

/-! ## 4. Occurrences -/

section Occurs

variable {d xs : List U8} {i a n : Nat}

theorem occursAt_le (h : OccursAt d xs i) (hd : d ≠ []) : i + d.length ≤ xs.length := by
  have hle := h.length_le
  have hpos := List.length_pos_iff.mpr hd
  rw [List.length_drop] at hle
  omega

theorem occursAt_iff_take (hd : d ≠ []) :
    OccursAt d xs i ↔ i + d.length ≤ xs.length ∧ (xs.drop i).take d.length = d := by
  constructor
  · intro h
    exact ⟨occursAt_le h hd, (List.prefix_iff_eq_take.mp h).symm⟩
  · intro h
    exact List.prefix_iff_eq_take.mpr h.2.symm

theorem apart_iff_bounded : MatchesApart d xs ↔ ∀ j, j < xs.length → ∀ i, i < j →
    OccursAt d xs i → OccursAt d xs j → i + d.length ≤ j := by
  refine ⟨fun h j _ i hij hi hj => h i j hi hj hij, fun h i j hi hj hij => ?_⟩
  by_cases hd : d = []
  · subst hd
    exact Nat.le_of_lt hij
  · have hle := occursAt_le hj hd
    have hpos := List.length_pos_iff.mpr hd
    exact h j (by omega) i hij hi hj

instance (d xs : List U8) : Decidable (MatchesApart d xs) :=
  decidable_of_iff _ apart_iff_bounded.symm

/-- A stretch of the text contains `d` where an occurrence lies in it. -/
theorem infix_stretch : d <:+: (xs.drop a).take n ↔
    ∃ i, a ≤ i ∧ i + d.length ≤ a + n ∧ OccursAt d xs i := by
  constructor
  · rintro ⟨p, q, h⟩
    have hlen := congrArg List.length h
    rw [List.length_append, List.length_append, List.length_take] at hlen
    refine ⟨a + p.length, by omega, by omega, q ++ (xs.drop a).drop n, ?_⟩
    have hsplit : p ++ (d ++ (q ++ (xs.drop a).drop n)) = xs.drop a := by
      rw [← List.append_assoc, ← List.append_assoc, h, List.take_append_drop]
    have hrest := congrArg (List.drop p.length) hsplit
    rw [List.drop_left] at hrest
    exact hrest.trans List.drop_drop
  · rintro ⟨i, hai, hin, h⟩
    have hpre : d <+: ((xs.drop a).take n).drop (i - a) := by
      rw [List.drop_take, List.drop_drop, List.prefix_take_iff, Nat.add_sub_cancel' hai]
      exact ⟨h, by omega⟩
    exact hpre.isInfix.trans (List.drop_suffix _ _).isInfix

end Occurs

theorem length_bytesAt (m : Mem) (a n : Nat) : (bytesAt m a n).length = n := by
  unfold bytesAt
  rw [List.length_map, List.length_range]

theorem getElem_bytesAt (m : Mem) {a n i : Nat} (h : i < (bytesAt m a n).length) :
    (bytesAt m a n)[i] = m (a + i) := by
  simp [bytesAt]

/-- The bytes of a stretch of an object. -/
theorem bytesAt_stretch (m : Mem) {a i k n : Nat} (h : i + k ≤ n) :
    bytesAt m (a + i) k = ((bytesAt m a n).drop i).take k := by
  refine List.ext_getElem ?_ fun j hj _ => ?_
  · rw [length_bytesAt, List.length_take, List.length_drop, length_bytesAt]
    omega
  · rw [List.getElem_take, List.getElem_drop, getElem_bytesAt, getElem_bytesAt, Nat.add_assoc]

theorem bytesAt_succ (m : Mem) (a n : Nat) : bytesAt m a (n + 1) = m a :: bytesAt m (a + 1) n := by
  unfold bytesAt
  rw [List.range_succ_eq_map, List.map_cons, List.map_map]
  congr 1
  refine List.map_congr_left fun i _ => ?_
  show m (a + (i + 1)) = m (a + 1 + i)
  congr 1
  omega

theorem memcmpFrom_eq_zero (m : Mem) (n p q : Nat) :
    memcmpFrom m n p q = 0 ↔ bytesAt m p n = bytesAt m q n := by
  induction n generalizing p q with
  | zero => exact iff_of_true rfl rfl
  | succ n ih =>
      rw [memcmpFrom, bytesAt_succ, bytesAt_succ, List.cons.injEq]
      split
      · rename_i hlt
        exact iff_of_false (by decide) fun h => BitVec.lt_irrefl _ (h.1 ▸ hlt)
      · rename_i hge
        split
        · rename_i hlt
          exact iff_of_false (by decide) fun h => BitVec.lt_irrefl _ (h.1 ▸ hlt)
        · rename_i hle
          have heq : m p = m q := BitVec.le_antisymm (BitVec.not_lt.mp hle) (BitVec.not_lt.mp hge)
          rw [ih, and_iff_right heq]

/-- The last piece behind the others. -/
theorem intercalate_concat {α : Type} (d : List α) (parts : List (List α)) (last : List α) :
    List.intercalate d (parts ++ [last]) = (parts.flatMap (· ++ d)) ++ last := by
  induction parts with
  | nil => simp
  | cons c parts ih =>
      rw [List.cons_append, List.flatMap_cons, List.append_assoc, ← ih]
      cases parts with
      | nil => simp
      | cons c' parts => simp

/-! ## 5. The array of pieces -/

/-- The pieces so far are `l`. -/
structure SplitPieces (st : SplitState) (l : List StrView) : Prop where
  items : st.result.items = if l = [] then none else some l
  count : st.result.count = BitVec.ofNat 64 l.length

section Push

variable {granted : Nat → Bool} {st : SplitState} {l : List StrView} {item : StrView}

/-- The array grows by one entry, or the heap refuses. -/
theorem ends_splitGrow (hitems : st.result.items = if l = [] then none else some l)
    (hcount : st.result.count = BitVec.ofNat 64 (l.length + 1)) (hl : l.length < 2 ^ 57) :
    ends (splitGrow granted) st
      (fun _ st' => st'.start = st.start ∧ st'.result.count = st.result.count ∧
        (st'.result.items = some (l ++ [strNull]) ∨
          st'.result.items = none ∧ ∃ k, granted k = false))
      fun _ => ∃ k, granted k = false := by
  unfold splitGrow
  rw [ends_bind, ends_get, hitems]
  by_cases hnil : l = []
  · subst hnil
    rw [if_pos rfl]
    cases hg : granted st.result.count.toNat with
    | true => exact ⟨rfl, rfl, .inl rfl⟩
    | false => exact ⟨_, hg⟩
  · rw [if_neg hnil, ends_set]
    refine ⟨rfl, rfl, ?_⟩
    have hn : (st.result.count * STR_SIZE).toNat / STR_SIZE.toNat = l.length + 1 := by
      have hlt : (l.length + 1) * 32 < 2 ^ 64 := by omega
      rw [BitVec.toNat_mul, hcount, ofNat_toNat_lt (by omega)]
      show (l.length + 1) * 32 % 2 ^ 64 / 32 = l.length + 1
      rw [Nat.mod_eq_of_lt hlt]
      omega
    cases hg : granted st.result.count.toNat with
    | true =>
        refine .inl ?_
        simp only [hn]
        rw [List.take_of_length_le (Nat.le_succ _), Nat.add_sub_cancel_left]
        rfl
    | false => exact .inr ⟨rfl, _, hg⟩

/-- **A piece is stored at the end**, or the heap refuses. -/
theorem ends_splitPush (h : SplitPieces st l) (hl : l.length < 2 ^ 57) :
    ends (splitPush granted item) st
      (fun _ st' => SplitPieces st' (l ++ [item]) ∧ st'.start = st.start)
      fun _ => ∃ k, granted k = false := by
  have hcount : st.result.count + 1 = BitVec.ofNat 64 (l.length + 1) := by
    rw [h.count, BitVec.ofNat_add]
    rfl
  unfold splitPush
  rw [ends_bind, ends_modify, ends_bind]
  refine ends_mono (ends_splitGrow h.items hcount hl) (fun _ st' h' => ?_) fun _ he => he
  obtain ⟨hstart, hcount', hitems⟩ := h'
  have hlast : (st'.result.count - 1).toNat = l.length := by
    rw [hcount']
    show (st.result.count + 1 - 1).toNat = _
    rw [BitVec.add_sub_cancel, h.count]
    exact ofNat_toNat_lt (by omega)
  unfold splitStore
  rw [ends_bind, ends_get]
  rcases hitems with hitems | ⟨hnone, hrefused⟩
  · simp only [hitems, hlast, List.length_append, List.length_singleton]
    rw [if_pos (Nat.lt_succ_self _), ends_set]
    refine ⟨⟨?_, ?_⟩, hstart⟩
    · rw [if_neg (by simp), List.set_append_right _ _ (Nat.le_refl _), Nat.sub_self]
      rfl
    · rw [List.length_append, List.length_singleton, ← hcount]
      exact hcount'
  · rw [hnone]
    exact hrefused

end Push

/-! ## 6. The scan -/

/-- No two occurrences before `i` overlap. -/
def MatchesApartTo (d xs : List U8) (i : Nat) : Prop :=
  ∀ a b, OccursAt d xs a → OccursAt d xs b → a < b → b < i → a + d.length ≤ b

/-- The pieces `l` make up the string to `start`, a delimiter behind each. -/
structure PiecesTo (m : Mem) (s d : StrView) (start : Nat) (l : List StrView) : Prop where
  inside : ∀ v ∈ l, v.Inside s
  joined : (l.map (StrView.bytes m)).flatMap (· ++ d.bytes m) = (s.bytes m).take start
  clear : ∀ v ∈ l, ¬ d.bytes m <:+: v.bytes m

/-- **The scan at `i`.** It has split at every occurrence before `i`; where two of them overlap, it
    has made a piece that is longer than the string. -/
structure SplitInv (m : Mem) (s d : StrView) (i : Nat) (st : SplitState) (l : List StrView) :
    Prop where
  pieces : SplitPieces st l
  few : l.length ≤ i
  start_le : st.start.toNat ≤ s.length.toNat
  passed : ∀ j, j < i → OccursAt (d.bytes m) (s.bytes m) j →
    j + d.length.toNat ≤ st.start.toNat
  last : st.start.toNat = 0 ∨
    ∃ j, j < i ∧ OccursAt (d.bytes m) (s.bytes m) j ∧ st.start.toNat = j + d.length.toNat
  good : MatchesApartTo (d.bytes m) (s.bytes m) i → PiecesTo m s d st.start.toNat l
  bad : ¬ MatchesApartTo (d.bytes m) (s.bytes m) i → ∃ v ∈ l, s.length.toNat < v.length.toNat

/-- The piece from `start` to `stop`. -/
def scanPiece (s : StrView) (start stop : Usize) : StrView :=
  { data := s.data + start, length := stop - start, capacity := stop - start, owned := false }

section Scan

variable {m : Mem} {granted : Nat → Bool} {s d : StrObject} {st : SplitState} {l : List StrView}
  {i : Nat} {v : StrView} {σ : Type}

theorem length_viewBytes (m : Mem) (s : StrView) : (s.bytes m).length = s.length.toNat :=
  length_bytesAt _ _ _

theorem toNat_pos {n : Usize} (hn : n ≠ 0) : 0 < n.toNat :=
  Nat.pos_of_ne_zero fun h => hn (BitVec.eq_of_toNat_eq h)

theorem bytes_ne_nil (hd : d.length ≠ 0) : d.bytes m ≠ [] := by
  rw [← List.length_pos_iff, length_viewBytes]
  exact toNat_pos hd

/-- The bytes of a view inside the string. -/
theorem bytes_inside {start n : Nat} (hin : start + n ≤ s.length.toNat)
    (hdata : v.data = s.data + BitVec.ofNat 64 start) (hlength : v.length.toNat = n) :
    v.bytes m = ((s.bytes m).drop start).take n := by
  have hmem := s.inMemory
  have hsmall := s.small
  unfold StrView.bytes
  rw [hlength, ← bytesAt_stretch m hin]
  rcases Nat.eq_zero_or_pos n with rfl | hpos
  · rfl
  · have haddr : v.data.toNat = s.data.toNat + start := by
      rw [hdata, BitVec.toNat_add, ofNat_toNat_lt (by omega), Nat.mod_eq_of_lt (by omega)]
    rw [haddr]

/-- `memcmp` at a place of the string says whether the delimiter stands there. -/
theorem ends_memcmp (hd : d.length ≠ 0) (hi : i + d.length.toNat ≤ s.length.toNat)
    (t : σ) (Q : Int → σ → Prop) (E : Fault → Prop)
    (h : ∀ c, (c = 0 ↔ OccursAt (d.bytes m) (s.bytes m) i) → Q c t) :
    ends (memcmp m (s.data + BitVec.ofNat 64 i) d.data d.length) t Q E := by
  have hpos := toNat_pos hd
  have hmem := s.inMemory
  have hsmall := s.small
  have haddr : (s.data + BitVec.ofNat 64 i).toNat = s.data.toNat + i := by
    rw [BitVec.toNat_add, ofNat_toNat_lt (by omega), Nat.mod_eq_of_lt (by omega)]
  have hne : s.data + BitVec.ofNat 64 i ≠ 0 := fun h0 => by
    have hs := toNat_pos s.notNull
    rw [h0] at haddr
    change 0 = _ at haddr
    omega
  unfold memcmp
  rw [ends_bind, ends_assert hne, ends_bind, ends_assert d.notNull, ends_pure]
  refine h _ ?_
  rw [memcmpFrom_eq_zero, haddr, bytesAt_stretch m hi, occursAt_iff_take (bytes_ne_nil hd),
    length_viewBytes, length_viewBytes, and_iff_right hi]
  rfl

/-- **A slice of the scan**: its assertions hold, and where `start` is past `stop` the length of the
    view wraps. -/
theorem ends_strViewSlice {start stop : Usize} (hstart : start ≤ s.length) (hstop : stop ≤ s.length)
    (t : σ) (Q : StrView → σ → Prop) (E : Fault → Prop) :
    ends (strViewSlice s start (stop - start)) t Q E ↔
      Q (scanPiece s start stop) t := by
  have hsum : start + (stop - start) = stop := by
    rw [BitVec.add_comm]
    exact BitVec.sub_add_cancel _ _
  unfold strViewSlice
  rw [ends_bind, ends_assert hstart, ends_bind, ends_assert (hsum.symm ▸ hstop), ends_pure]
  rfl

/-- The stretch between two places of which no occurrence starts in between holds no delimiter. -/
theorem clear_stretch {xs d : List U8} {start stop : Nat} (hd : d ≠ [])
    (h : ∀ j, start ≤ j → j + d.length ≤ stop → ¬ OccursAt d xs j) :
    ¬ d <:+: (xs.drop start).take (stop - start) := by
  intro hin
  obtain ⟨j, hj, hle, hocc⟩ := infix_stretch.mp hin
  have hpos := List.length_pos_iff.mpr hd
  exact h j hj (by omega) hocc

/-- A piece that ends before the next delimiter, which stands at `stop`. -/
theorem piecesTo_snoc {start : Usize} {stop : Nat} (hd : d.length ≠ 0)
    (h : PiecesTo m s d start.toNat l) (hle : start.toNat ≤ stop)
    (hin : stop ≤ s.length.toNat) (hdata : v.data = s.data + start)
    (hlength : v.length.toNat = stop - start.toNat)
    (hclear : ∀ j, start.toNat ≤ j → j + d.length.toNat ≤ stop →
      ¬ OccursAt (d.bytes m) (s.bytes m) j) :
    (∀ v' ∈ l ++ [v], v'.Inside s) ∧ (∀ v' ∈ l ++ [v], ¬ d.bytes m <:+: v'.bytes m) ∧
      (l.map (StrView.bytes m)).flatMap (· ++ d.bytes m) ++ v.bytes m = (s.bytes m).take stop := by
  have hdata' : v.data = s.data + BitVec.ofNat 64 start.toNat := by
    rw [BitVec.ofNat_toNat, BitVec.setWidth_eq]
    exact hdata
  have hbytes : v.bytes m = ((s.bytes m).drop start.toNat).take (stop - start.toNat) :=
    bytes_inside (by omega) hdata' hlength
  refine ⟨fun v' hv' => ?_, fun v' hv' => ?_, ?_⟩
  · rcases List.mem_append.mp hv' with hv' | hv'
    · exact h.inside v' hv'
    · obtain rfl := List.mem_singleton.mp hv'
      exact ⟨start.toNat, hdata', by omega⟩
  · rcases List.mem_append.mp hv' with hv' | hv'
    · exact h.clear v' hv'
    · obtain rfl := List.mem_singleton.mp hv'
      rw [hbytes]
      refine clear_stretch (bytes_ne_nil hd) ?_
      rw [length_viewBytes]
      exact hclear
  · have hsplit : stop = start.toNat + (stop - start.toNat) := by omega
    rw [h.joined, hbytes, hsplit, List.take_add, Nat.add_sub_cancel_left]

theorem splitInv_start (s d : StrView) :
    SplitInv m s d 0 { result := { items := none, count := 0 }, start := 0 } [] := by
  refine ⟨⟨rfl, rfl⟩, Nat.le_refl 0, Nat.zero_le _, fun j hj => absurd hj (Nat.not_lt_zero j),
    .inl rfl, fun _ => ⟨fun v hv => absurd hv List.not_mem_nil, rfl,
      fun v hv => absurd hv List.not_mem_nil⟩, fun h => absurd (fun _ _ _ _ _ hb => ?_) h⟩
  exact absurd hb (Nat.not_lt_zero _)

/-- No occurrence at `i`. -/
theorem splitInv_skip (h : SplitInv m s d i st l)
    (hocc : ¬ OccursAt (d.bytes m) (s.bytes m) i) : SplitInv m s d (i + 1) st l := by
  have hbefore : ∀ j, j < i + 1 → OccursAt (d.bytes m) (s.bytes m) j → j < i := fun j hj hj' => by
    rcases Nat.lt_succ_iff_lt_or_eq.mp hj with hlt | rfl
    · exact hlt
    · exact absurd hj' hocc
  have hiff : MatchesApartTo (d.bytes m) (s.bytes m) (i + 1) ↔
      MatchesApartTo (d.bytes m) (s.bytes m) i :=
    ⟨fun ha a b hoa hob hab hb => ha a b hoa hob hab (Nat.lt_succ_of_lt hb),
      fun ha a b hoa hob hab hb => ha a b hoa hob hab (hbefore b hb hob)⟩
  refine ⟨h.pieces, Nat.le_succ_of_le h.few, h.start_le,
    fun j hj hj' => h.passed j (hbefore j hj hj') hj', ?_, ?_, ?_⟩
  · rcases h.last with h0 | ⟨j, hj, hj'⟩
    · exact .inl h0
    · exact .inr ⟨j, Nat.lt_succ_of_lt hj, hj'⟩
  · rw [hiff]
    exact h.good
  · rw [hiff]
    exact h.bad

/-- **An occurrence at `i`**: it ends a piece, or it starts inside the last one found. -/
theorem splitInv_split (hd : d.length ≠ 0) (hi : i + d.length.toNat ≤ s.length.toNat)
    (h : SplitInv m s d i st l) (hocc : OccursAt (d.bytes m) (s.bytes m) i) {st' : SplitState}
    (hpieces : SplitPieces st' (l ++ [scanPiece s st.start (BitVec.ofNat 64 i)]))
    (hstart : st'.start = BitVec.ofNat 64 i + d.length) :
    SplitInv m s d (i + 1) st' (l ++ [scanPiece s st.start (BitVec.ofNat 64 i)]) := by
  have hpos := toNat_pos hd
  have hsmall := s.small
  have hstart_le := h.start_le
  have hi' : (BitVec.ofNat 64 i).toNat = i := ofNat_toNat_lt (by omega)
  have hnew : st'.start.toNat = i + d.length.toNat := by
    rw [hstart, BitVec.toNat_add, hi', Nat.mod_eq_of_lt (by omega)]
  refine ⟨hpieces, ?_, by omega, fun j hj hj' => ?_, .inr ⟨i, Nat.lt_succ_self i, hocc, hnew⟩,
    fun hapart => ?_, fun hnot => ?_⟩
  · rw [List.length_append]
    exact Nat.add_le_add_right h.few 1
  · omega
  · -- the piece ends where the delimiter starts
    have hle : st.start.toNat ≤ i := by
      rcases h.last with h0 | ⟨j, hj, hj', hjs⟩
      · omega
      · rw [hjs, ← length_viewBytes m d.toStrView]
        exact hapart j i hj' hocc hj (Nat.lt_succ_self i)
    have hgood := h.good fun a b hoa hob hab hb => hapart a b hoa hob hab (Nat.lt_succ_of_lt hb)
    have hlength : (BitVec.ofNat 64 i - st.start).toNat = i - st.start.toNat := by
      rw [BitVec.toNat_sub_of_le (by rw [BitVec.le_def, hi']; exact hle), hi']
    obtain ⟨hinside, hclear, hjoined⟩ :=
      piecesTo_snoc (v := scanPiece s st.start (BitVec.ofNat 64 i)) hd hgood hle (by omega) rfl
        hlength fun j hj hjle hj' => by
          have hpass := h.passed j (by omega) hj'
          omega
    refine ⟨hinside, ?_, hclear⟩
    have hdelim : ((s.bytes m).drop i).take d.length.toNat = d.bytes m := by
      rw [← length_viewBytes m d.toStrView]
      exact ((occursAt_iff_take (bytes_ne_nil hd)).mp hocc).2
    rw [List.map_append, List.flatMap_append, hnew, List.take_add, hdelim, ← hjoined]
    simp
  · by_cases hbefore : MatchesApartTo (d.bytes m) (s.bytes m) i
    · -- the length of this piece wraps
      have hgt : i < st.start.toNat := by
        refine Nat.lt_of_not_le fun hle => hnot fun a b hoa hob hab hb => ?_
        rcases Nat.lt_succ_iff_lt_or_eq.mp hb with hlt | rfl
        · exact hbefore a b hoa hob hab hlt
        · rw [length_viewBytes]
          exact Nat.le_trans (h.passed a hab hoa) hle
      refine ⟨_, List.mem_append_right _ List.mem_cons_self, ?_⟩
      show s.length.toNat < (BitVec.ofNat 64 i - st.start).toNat
      rw [BitVec.toNat_sub, hi']
      omega
    · obtain ⟨v, hv, hlong⟩ := h.bad hbefore
      exact ⟨v, List.mem_append_left _ hv, hlong⟩

/-! ## 7. The whole split -/

/-- **A round.** -/
theorem ends_splitRound (hd : d.length ≠ 0) (hi : i + d.length.toNat ≤ s.length.toNat)
    (h : SplitInv m s d i st l) :
    ends (splitRound m granted s d (BitVec.ofNat 64 i)) st
      (fun _ st' => ∃ l', SplitInv m s d (i + 1) st' l') fun _ => ∃ k, granted k = false := by
  have hsmall := s.small
  have hi' : (BitVec.ofNat 64 i).toNat = i := ofNat_toNat_lt (by omega)
  unfold splitRound
  rw [ends_bind]
  refine ends_memcmp hd hi st _ _ fun c hc => ?_
  by_cases hzero : c = 0
  · have hstop : BitVec.ofNat 64 i ≤ s.length := by
      rw [BitVec.le_def, hi']
      omega
    rw [if_pos hzero, ends_bind, ends_get, ends_bind, ends_strViewSlice h.start_le hstop,
      ends_bind]
    have hfew := h.few
    refine ends_mono (ends_splitPush h.pieces (by omega)) (fun _ st' h' => ?_) fun _ he => he
    rw [ends_modify]
    exact ⟨_, splitInv_split hd hi h (hc.mp hzero) ⟨h'.1.items, h'.1.count⟩ rfl⟩
  · rw [if_neg hzero, ends_pure]
    exact ⟨l, splitInv_skip h fun hocc => hzero (hc.mpr hocc)⟩

/-- After the scan every occurrence is passed. -/
theorem apartTo_end (hd : d.length ≠ 0) {n : Nat}
    (hn : n = s.length.toNat + 1 - d.length.toNat) :
    MatchesApartTo (d.bytes m) (s.bytes m) n ↔ MatchesApart (d.bytes m) (s.bytes m) := by
  refine ⟨fun ha a b hoa hob hab => ha a b hoa hob hab ?_,
    fun ha a b hoa hob hab _ => ha a b hoa hob hab⟩
  have hle := occursAt_le hob (bytes_ne_nil hd)
  have hpos := toNat_pos hd
  rw [length_viewBytes, length_viewBytes] at hle
  omega

/-- **The last piece.** -/
theorem ends_splitRest (hd : d.length ≠ 0)
    (h : SplitInv m s d (s.length.toNat + 1 - d.length.toNat) st l) :
    ends (splitRest granted s) st
      (fun _ st' => ∃ items, st'.result.items = some items ∧
        st'.result.count.toNat = items.length ∧
        (MatchesApart (d.bytes m) (s.bytes m) → SplitOf m s d st'.result items) ∧
        (¬ MatchesApart (d.bytes m) (s.bytes m) → ∃ v ∈ items, s.length.toNat < v.length.toNat))
      fun _ => ∃ k, granted k = false := by
  have hsmall := s.small
  have hpos := toNat_pos hd
  have hstart_le : st.start ≤ s.length := h.start_le
  have hfew := h.few
  unfold splitRest
  rw [ends_bind, ends_get, if_pos hstart_le, ends_bind,
    ends_strViewSlice hstart_le (BitVec.le_refl _)]
  refine ends_mono (ends_splitPush h.pieces (by omega)) (fun _ st' h' => ?_) fun _ he => he
  obtain ⟨hpieces, -⟩ := h'
  have hitems : st'.result.items = some (l ++ [scanPiece s st.start s.length]) := by
    rw [hpieces.items, if_neg (by simp)]
  have hcount : st'.result.count.toNat = (l ++ [scanPiece s st.start s.length]).length := by
    rw [hpieces.count, List.length_append, List.length_singleton, ofNat_toNat_lt (by omega)]
  refine ⟨_, hitems, hcount, fun hapart => ?_, fun hnot => ?_⟩
  · have hgood := h.good ((apartTo_end hd rfl).mpr hapart)
    obtain ⟨hinside, hclear, hjoined⟩ :=
      piecesTo_snoc (v := scanPiece s st.start s.length) hd hgood h.start_le (Nat.le_refl _) rfl
        (BitVec.toNat_sub_of_le hstart_le) fun j hj hjle hj' => by
          have hpass := h.passed j (by omega) hj'
          omega
    refine ⟨hitems, hcount, hinside, ?_, hclear⟩
    rw [List.map_append, List.map_singleton, intercalate_concat, hjoined]
    exact List.take_of_length_le (Nat.le_of_eq (length_viewBytes m s))
  · obtain ⟨v, hv, hlong⟩ := h.bad fun ha => hnot ((apartTo_end hd rfl).mp ha)
    exact ⟨v, List.mem_append_left _ hv, hlong⟩

/-- **What `str_split` returns**, whether the occurrences are apart or not. -/
theorem ends_strSplit (hs : s.length ≠ 0) (hd : d.length ≠ 0) :
    ends (strSplit m granted s d) st
      (fun result _ => ∃ items, result.items = some items ∧
        result.count.toNat = items.length ∧
        (MatchesApart (d.bytes m) (s.bytes m) → SplitOf m s d result items) ∧
        (¬ MatchesApart (d.bytes m) (s.bytes m) → ∃ v ∈ items, s.length.toNat < v.length.toNat))
      fun _ => ∃ k, granted k = false := by
  unfold strSplit splitScan
  rw [ends_bind, ends_set, if_neg hs, if_neg hd, ends_bind]
  refine ends_mono (ends_forUp (fun i st => ∃ l, SplitInv m s d i st l) ⟨[], splitInv_start s d⟩
    fun i t hi ht => ?_) (fun _ t ht => ?_) fun _ he => he
  · obtain ⟨l, ht⟩ := ht
    exact ends_splitRound hd (by omega) ht
  · obtain ⟨l, ht⟩ := ht
    rw [ends_bind]
    refine ends_mono (ends_splitRest hd ht) (fun _ t' h' => ?_) fun _ he => he
    exact h'

end Scan

/-- **`str_split` splits a string into its pieces exactly where no two occurrences of the delimiter
    in it overlap.** -/
theorem strSplit_exact (m : Mem) (s d : StrObject) (hs : s.length ≠ 0) (hd : d.length ≠ 0) :
    Splits m s d ↔ MatchesApart (d.bytes m) (s.bytes m) := by
  constructor
  · intro h
    refine Classical.byContradiction fun hnot => ?_
    have hends := ends_and (h (fun _ => true) ⟨⟨none, 0⟩, 0⟩) (ends_strSplit hs hd)
    -- a heap that grants every request
    have hret := wp_of_ends (ends_mono hends (fun _ _ hq => hq) fun _ he => by
      obtain ⟨⟨k, hk⟩, -⟩ := he
      cases hk)
    obtain ⟨result, _, -, ⟨items, hof⟩, items', hitems', -, -, hlong⟩ := hret
    obtain rfl := Option.some.inj (hof.array.symm.trans hitems')
    obtain ⟨v, hv, hlt⟩ := hlong hnot
    obtain ⟨k, -, hle⟩ := hof.inside v hv
    omega
  · intro hapart granted st
    refine ends_mono (ends_strSplit hs hd) (fun result _ h => ?_) fun _ he => he
    obtain ⟨items, -, -, hgood, -⟩ := h
    exact ⟨items, hgood hapart⟩

/-- Texts in memory: `aaa` and `xaay`, and `aa` behind them. -/
def textMemory (x : Nat) : Byte :=
  if 4096 ≤ x ∧ x < 4099 then 0x61
  else if 4112 ≤ x ∧ x < 4116 then [0x78, 0x61, 0x61, 0x79].getD (x - 4112) 0
  else if 8192 ≤ x ∧ x < 8194 then 0x61
  else 0

def aaaText : StrObject :=
  { data := 4096, length := 3, capacity := 4, owned := false, notNull := by decide,
    small := by decide, inMemory := by decide }

def xaayText : StrObject :=
  { data := 4112, length := 4, capacity := 5, owned := false, notNull := by decide,
    small := by decide, inMemory := by decide }

def aaText : StrObject :=
  { data := 8192, length := 2, capacity := 2, owned := false, notNull := by decide,
    small := by decide, inMemory := by decide }

theorem strSplit_exact_xaay : Splits textMemory xaayText aaText :=
  (strSplit_exact textMemory xaayText aaText (by decide) (by decide)).mpr (by decide +kernel)

/-- The second piece of `aaa` split at `aa` is 2^64 - 1 bytes long. -/
theorem strSplit_overlapping : ¬ Splits textMemory aaaText aaText := by
  intro h
  have hlengths : (match strSplit textMemory (fun _ => true) aaaText aaText ⟨⟨none, 0⟩, 0⟩ with
      | .ok (result, _) => result.items.map fun items => items.map fun v => v.length.toNat
      | .error _ => none) = some [0, 2 ^ 64 - 1, 0] := by
    decide +kernel
  have hends := h (fun _ => true) ⟨⟨none, 0⟩, 0⟩
  unfold ends at hends
  split at hends
  · rename_i result st' hok
    obtain ⟨items, hof⟩ := hends
    rw [hok] at hlengths
    simp only [hof.array, Option.map_some, Option.some.injEq] at hlengths
    have hmem : 2 ^ 64 - 1 ∈ items.map fun v => v.length.toNat := by simp [hlengths]
    obtain ⟨v, hv, hlong⟩ := List.mem_map.mp hmem
    obtain ⟨k, -, hle⟩ := hof.inside v hv
    change k + v.length.toNat ≤ 3 at hle
    omega
  · obtain ⟨k, hk⟩ := hends
    cases hk

end Slightx
