/-
  File:      Slightx/Vfs/Path.lean
  Subject:   `vfs_path_normalize`, and the copy its comparison with ".." reads.

  Sources: libs/vfs/src/path.c, libs/vfs/include/vfs/path.h, ulibc/src/mem/str.c.

  A component of two characters is compared with ".." through `vfs_path_as_str(path)`. That
  function takes the path by value and returns a pointer into its own parameter, an object whose
  life ends with the call: `str_equal` reads whatever the place of the copy holds by then. The
  model takes those bytes as an argument, `left start` for the copy made at the component that
  starts at `start`.

  * `Walked`, `absorb` -- the scan as steps on the components kept so far, token by token
  * `wp_normalizeLoop` -- the loop makes those steps, and never leaves the buffers
  * `walkTokens_none_iff` -- when the result does not fit
  * `vfsPathNormalize_exact` -- the paths for which the dead copy does not matter
  * `vfsPathNormalize_kept` -- where the copy keeps its bytes, every path is normalized
-/
import Mathlib.Data.List.Basic
import Slightx.Klibc.Itoa
import Slightx.Lib.Components

namespace Slightx

open Lib

/-! ## 1. The function -/

def VFS_PATH_MAX : Nat := 4096

def slash : U8 := 0x2F

def dot : U8 := 0x2E

structure VfsPath where
  length : Usize
  data : Fin VFS_PATH_MAX → U8

def vfsPathNull : VfsPath := { length := 0, data := fun _ => 0 }

/-- The ways the function does not return. -/
inductive PathFault where
  /-- a failing `assert(cond)` -/
  | assertion (cond : String)
  /-- an access to `data[i]` of a path where `i` is not below `VFS_PATH_MAX` -/
  | index (i : Nat)
  /-- a loop that goes on after all its rounds -/
  | unended
  deriving DecidableEq, Repr

/-- The variables of the scan. Cursors stay below `2 ^ 64`; `w - 1` is the place where they could
    wrap. -/
structure Scan where
  /-- `result.data` -/
  data : Fin VFS_PATH_MAX → U8
  w : Nat
  r : Nat

/-- `str_literal("..")` -/
def parentLiteral : Str :=
  { data := fun i => if i < 2 then dot else 0, length := 2, capacity := 2, owned := false }

/-- The pointer leads into the parameter, so to the bytes `left` of a dead object. -/
def vfsPathAsStr (path : VfsPath) (left : Nat → U8) : Str :=
  { data := left, length := path.length, capacity := BitVec.ofNat 64 VFS_PATH_MAX, owned := false }

def pathAssert (cond : Prop) [Decidable cond] (text : String) : Prog PathFault Scan Unit :=
  if cond then pure () else throw (.assertion text)

def strSlice (s : Str) (start length : Usize) : Prog PathFault Scan Str := do
  pathAssert (start ≤ s.length) "start <= s.length"
  pathAssert (start + length ≤ s.length) "start + length <= s.length"
  pure { data := fun i => s.data (start.toNat + i), length := length, capacity := length,
         owned := false }

def strEqual (a b : Str) : Bool :=
  a.length == b.length && (List.range a.length.toNat).all fun i => a.data i == b.data i

/-- `path.data[i]` -/
def pathAt (path : VfsPath) (i : Nat) : Prog PathFault Scan U8 :=
  if h : i < VFS_PATH_MAX then pure (path.data ⟨i, h⟩) else throw (.index i)

/-- `result.data[w - 1]` -/
def lastResult : Prog PathFault Scan U8 := do
  let s ← get
  let i := (s.w + (2 ^ 64 - 1)) % 2 ^ 64
  if h : i < VFS_PATH_MAX then pure (s.data ⟨i, h⟩) else throw (.index i)

def Scan.put (s : Scan) (c : U8) : Scan :=
  { s with data := fun i => if i.val = s.w then c else s.data i, w := s.w + 1 }

/-- `result.data[w++] = c` -/
def putResult (c : U8) : Prog PathFault Scan Unit := do
  let s ← get
  if s.w < VFS_PATH_MAX then set (s.put c) else throw (.index s.w)

/-- `if (w >= VFS_PATH_MAX - 1) return vfs_path_null(); result.data[w++] = '/';`, where `false` is
    the return. -/
def putSlash : Prog PathFault Scan Bool := do
  if VFS_PATH_MAX - 1 ≤ (← get).w then pure false
  else do
    putResult slash
    pure true

/-- `while (r < path.length && path.data[r] != '/') r++;` -/
def skipName (path : VfsPath) : (rounds : Nat) → Prog PathFault Scan Unit
  | 0 => throw .unended
  | rounds + 1 => do
      let s ← get
      if s.r < path.length.toNat then
        if (← pathAt path s.r) ≠ slash then do
          set { s with r := s.r + 1 }
          skipName path rounds
        else pure ()
      else pure ()

/-- `while (w > 1 && result.data[w - 1] != '/') w--;` -/
def dropName : (rounds : Nat) → Prog PathFault Scan Unit
  | 0 => throw .unended
  | rounds + 1 => do
      let s ← get
      if 1 < s.w then
        if (← lastResult) ≠ slash then do
          set { s with w := s.w - 1 }
          dropName rounds
        else pure ()
      else pure ()

/-- `len == 1 && path.data[start] == '.'` -/
def isDot (path : VfsPath) (start len : Nat) : Prog PathFault Scan Bool := do
  if len = 1 then pure (decide ((← pathAt path start) = dot)) else pure false

/-- `len == 2 && str_equal(str_slice(vfs_path_as_str(path), start, len), str_literal(".."))` -/
def isParent (path : VfsPath) (left : Nat → Nat → U8) (start len : Nat) :
    Prog PathFault Scan Bool :=
  if len = 2 then do
    let name ← strSlice (vfsPathAsStr path (left start)) (BitVec.ofNat 64 start)
      (BitVec.ofNat 64 len)
    pure (strEqual name parentLiteral)
  else pure false

/-- `w == 0 || result.data[w - 1] != '/'` -/
def endsOpen : Prog PathFault Scan Bool := do
  if (← get).w = 0 then pure true else pure (decide ((← lastResult) ≠ slash))

/-- `if (w > 1) { w--; … }`: the last component goes. -/
def popParent : Prog PathFault Scan Unit := do
  if 1 < (← get).w then do
    modify fun s => { s with w := s.w - 1 }
    dropName (← get).w
  else pure ()

/-- The branch for a slash. -/
def normalizeSlash : Prog PathFault Scan Bool := do
  let isOpen ← endsOpen
  if ← (if isOpen then putSlash else pure true) then do
    modify fun s => { s with r := s.r + 1 }
    pure true
  else pure false

/-- The copy of a regular component. -/
def normalizeCopy (path : VfsPath) (start len : Nat) : Prog PathFault Scan Bool := do
  if ← (do if (← lastResult) ≠ slash then putSlash else pure true) then
    if VFS_PATH_MAX ≤ (← get).w + len then pure false
    else do
      forUp len fun i => do putResult (← pathAt path (start + i))
      pure true
  else pure false

/-- A round of the scan; `false` is `return vfs_path_null()`. -/
def normalizeRound (path : VfsPath) (left : Nat → Nat → U8) : Prog PathFault Scan Bool := do
  let start := (← get).r
  if (← pathAt path start) = slash then normalizeSlash
  else do
    skipName path (path.length.toNat - start + 1)
    let len := (← get).r - start
    if ← isDot path start len then pure true
    else if ← isParent path left start len then do
      popParent
      pure true
    else normalizeCopy path start len

/-- `while (r < path.length)` -/
def normalizeLoop (path : VfsPath) (left : Nat → Nat → U8) :
    (rounds : Nat) → Prog PathFault Scan Bool
  | 0 => throw .unended
  | rounds + 1 => do
      if (← get).r < path.length.toNat then
        if ← normalizeRound path left then normalizeLoop path left rounds else pure false
      else pure true

/-- `if (w > 1 && result.data[w - 1] == '/') w--;` -/
def stripSlash : Prog PathFault Scan Unit := do
  if 1 < (← get).w then
    if (← lastResult) = slash then modify fun s => { s with w := s.w - 1 } else pure ()
  else pure ()

/-- `if (w == 0) result.data[w++] = '/';` -/
def putRoot : Prog PathFault Scan Unit := do
  if (← get).w = 0 then putResult slash else pure ()

/-- What comes after the scan. -/
def normalizeEnd : Prog PathFault Scan VfsPath := do
  stripSlash
  putRoot
  let s ← get
  pure { length := BitVec.ofNat 64 s.w, data := s.data }

def scanStart : Scan := { data := fun _ => 0, w := 0, r := 0 }

def vfsPathNormalize (path : VfsPath) (left : Nat → Nat → U8) : Prog PathFault Scan VfsPath := do
  pathAssert (0 < path.length) "path.length > 0"
  pathAssert (path.data ⟨0, by decide⟩ = slash) "path.data[0] == '/'"
  if ← normalizeLoop path left (path.length.toNat + 1) then normalizeEnd
  else pure vfsPathNull

/-! ## 2. Texts -/

def VfsPath.char (path : VfsPath) (i : Nat) : U8 :=
  if h : i < VFS_PATH_MAX then path.data ⟨i, h⟩ else 0

/-- The characters of a path. -/
def VfsPath.bytes (path : VfsPath) : List U8 := (List.range path.length.toNat).map path.char

/-- The paths the function is for. -/
structure Rooted (path : VfsPath) : Prop where
  pos : 0 < path.length.toNat
  max : path.length.toNat ≤ VFS_PATH_MAX
  root : path.data ⟨0, by decide⟩ = slash

def Scan.char (s : Scan) (i : Nat) : U8 :=
  if h : i < VFS_PATH_MAX then s.data ⟨i, h⟩ else 0

/-- The characters written so far. -/
def Scan.text (s : Scan) : List U8 := (List.range s.w).map s.char

section Texts

variable {path : VfsPath} {left : Nat → Nat → U8} {s : Scan} {c : U8} {t : List U8} {i : Nat}

theorem length_bytes : path.bytes.length = path.length.toNat := by
  rw [VfsPath.bytes, List.length_map, List.length_range]

theorem length_text : s.text.length = s.w := by
  rw [Scan.text, List.length_map, List.length_range]

theorem bytes_at (h : i < path.length.toNat) : path.bytes[i]? = some (path.char i) := by
  rw [VfsPath.bytes, List.getElem?_map, List.getElem?_range h]
  rfl

theorem text_at (h : i < s.w) : s.text[i]? = some (s.char i) := by
  rw [Scan.text, List.getElem?_map, List.getElem?_range h]
  rfl

/-- What is left of the text from `i` on. -/
theorem drop_cons (h : path.bytes.drop i = c :: t) :
    i < path.length.toNat ∧ path.char i = c ∧ path.bytes.drop (i + 1) = t := by
  have hlt : i < path.bytes.length := by
    refine Nat.lt_of_not_le fun hle => ?_
    rw [List.drop_eq_nil_of_le hle] at h
    cases h
  rw [List.drop_eq_getElem_cons hlt] at h
  obtain ⟨hc, ht⟩ := List.cons.inj h
  rw [length_bytes] at hlt
  refine ⟨hlt, ?_, ht⟩
  have hat := bytes_at hlt
  rw [List.getElem?_eq_getElem (length_bytes ▸ hlt), hc] at hat
  exact (Option.some.inj hat).symm

theorem bytes_root (h : Rooted path) : ∃ t, path.bytes = slash :: t := by
  have hchar : path.char 0 = slash := by
    unfold VfsPath.char
    rw [dif_pos (by decide)]
    exact h.root
  have hat := bytes_at h.pos
  rw [hchar, ← List.head?_eq_getElem?] at hat
  exact List.head?_eq_some_iff.mp hat

theorem text_put (h : s.w < VFS_PATH_MAX) : (s.put c).text = s.text ++ [c] := by
  have hw : (s.put c).w = s.w + 1 := rfl
  have hchar : ∀ i, i < s.w → (s.put c).char i = s.char i := by
    intro i hi
    unfold Scan.char
    split
    · exact if_neg (Nat.ne_of_lt hi)
    · rfl
  have hlast : (s.put c).char s.w = c := by
    unfold Scan.char
    rw [dif_pos h]
    exact if_pos rfl
  rw [Scan.text, hw, List.range_succ, List.map_append, List.map_singleton, hlast]
  congr 1
  exact List.map_congr_left fun i hi => hchar i (List.mem_range.mp hi)

/-- The text after `w--`. -/
theorem text_back (h : s.text = t ++ [c]) : { s with w := s.w - 1 : Scan }.text = t := by
  have hlen := length_text (s := s)
  rw [h, List.length_append, List.length_singleton] at hlen
  have ht : { s with w := s.w - 1 : Scan }.text = s.text.take (s.w - 1) := by
    rw [Scan.text, Scan.text, ← List.map_take, List.take_range, Nat.min_eq_left (Nat.sub_le _ _)]
    rfl
  rw [ht, h, ← hlen, Nat.add_sub_cancel, List.take_left]

/-! ## 3. The accesses -/

theorem wp_pathAssert {cond : Prop} [Decidable cond] (h : cond) (text : String) (s : Scan)
    (Q : Unit → Scan → Prop) : wp (pathAssert cond text) s Q ↔ Q () s := by
  unfold pathAssert
  rw [if_pos h, wp_pure]

theorem wp_pathAt (h : i < VFS_PATH_MAX) (s : Scan) (Q : U8 → Scan → Prop) :
    wp (pathAt path i) s Q ↔ Q (path.char i) s := by
  unfold pathAt VfsPath.char
  rw [dif_pos h, dif_pos h, wp_pure]

theorem wp_putResult (h : s.w < VFS_PATH_MAX) (Q : Unit → Scan → Prop) :
    wp (putResult c) s Q ↔ Q () (s.put c) := by
  unfold putResult
  rw [wp_bind, wp_get, if_pos h, wp_set]

/-- `result.data[w - 1]` is the last character written, if there is one. -/
theorem wp_lastResult (h : s.text = t ++ [c]) (hw : s.w ≤ VFS_PATH_MAX) (Q : U8 → Scan → Prop) :
    wp lastResult s Q ↔ Q c s := by
  have hlen := length_text (s := s)
  rw [h, List.length_append, List.length_singleton] at hlen
  have hmax : VFS_PATH_MAX = 4096 := rfl
  have hi : (s.w + (2 ^ 64 - 1)) % 2 ^ 64 = s.w - 1 := by omega
  have hlt : s.w - 1 < VFS_PATH_MAX := by omega
  have hc : s.char (s.w - 1) = c := by
    have hat := text_at (s := s) (i := s.w - 1) (by omega)
    rw [h, ← hlen, Nat.add_sub_cancel, List.getElem?_concat_length] at hat
    rw [← hlen, Nat.add_sub_cancel]
    exact (Option.some.inj hat).symm
  unfold lastResult
  rw [wp_bind, wp_get]
  simp only [hi]
  rw [dif_pos hlt, wp_pure, ← hc, Scan.char, dif_pos hlt]

theorem wp_putSlash (s : Scan) (Q : Bool → Scan → Prop) : wp putSlash s Q ↔
    if VFS_PATH_MAX - 1 ≤ s.w then Q false s else Q true (s.put slash) := by
  unfold putSlash
  rw [wp_bind, wp_get]
  split
  · exact wp_pure _ _ _
  · rw [wp_bind, wp_putResult (by omega), wp_pure]

end Texts

/-! ## 4. The scan, token by token -/

/-- What the dead copy says of the component of two characters at `start`: is it ".."? -/
def leftParent (left : Nat → Nat → U8) (start : Nat) : Bool :=
  left start start == dot && left start (start + 1) == dot

/-- The result so far: the components kept, and whether a slash follows the last one. -/
structure Walked where
  kept : List (List U8)
  closed : Bool

def Walked.text (k : Walked) : List U8 :=
  rendered slash k.kept ++ if k.closed then [slash] else []

/-- One round on the result so far; `none` where it does not fit. -/
def absorb (verdict : Nat → Bool) (k : Walked) : Token U8 → Option Walked
  | .sep =>
      if k.closed then some k
      else if VFS_PATH_MAX - 1 ≤ k.text.length then none
      else some { k with closed := true }
  | .name start c =>
      if c = [dot] then some k
      else if c.length = 2 ∧ verdict start then some { k with kept := k.kept.dropLast }
      else if VFS_PATH_MAX ≤ k.text.length + c.length then none
      else some { kept := k.kept ++ [c], closed := false }

section Rounds

variable {path : VfsPath} {left : Nat → Nat → U8} {s : Scan} {k : Walked} {c t : List U8}

theorem wp_skipName (hmax : path.length.toNat ≤ VFS_PATH_MAX)
    (hrest : path.bytes.drop s.r = c ++ t) (hc : slash ∉ c) (ht : Cut slash t) {rounds : Nat}
    (hrounds : c.length < rounds) :
    wp (skipName path rounds) s fun _ s' => s' = { s with r := s.r + c.length } := by
  induction c generalizing s rounds with
  | nil =>
      obtain ⟨rounds, rfl⟩ : ∃ n, rounds = n + 1 := ⟨rounds - 1, by omega⟩
      rw [skipName, wp_bind, wp_get]
      split
      · rename_i hlt
        rcases ht with rfl | ⟨t, rfl⟩
        · have hle := List.drop_eq_nil_iff.mp hrest
          rw [length_bytes] at hle
          omega
        · rw [wp_bind, wp_pathAt (Nat.lt_of_lt_of_le hlt hmax), (drop_cons hrest).2.1,
            if_neg (not_not_intro rfl), wp_pure]
          rfl
      · rw [wp_pure]
        rfl
  | cons x c ih =>
      obtain ⟨rounds, rfl⟩ : ∃ n, rounds = n + 1 := ⟨rounds - 1, by omega⟩
      obtain ⟨hlt, hx, hdrop⟩ := drop_cons hrest
      have hne : x ≠ slash := fun he => hc (he ▸ List.mem_cons_self)
      rw [skipName, wp_bind, wp_get, if_pos hlt, wp_bind,
        wp_pathAt (Nat.lt_of_lt_of_le hlt hmax), hx, if_pos hne, wp_bind, wp_set]
      refine wp_mono (ih hdrop (fun h => hc (List.mem_cons_of_mem x h))
        (Nat.lt_of_succ_lt_succ hrounds)) ?_
      rintro _ s' rfl
      simp only [List.length_cons, Nat.add_assoc, Nat.add_comm 1]

/-- The name behind the last slash goes. -/
theorem wp_dropName (htext : s.text = t ++ slash :: c) (hc : slash ∉ c) (hw : s.w ≤ VFS_PATH_MAX)
    {rounds : Nat} (hrounds : c.length < rounds) :
    wp (dropName rounds) s fun _ s' => s'.text = t ++ [slash] ∧ s'.r = s.r := by
  have hlen := length_text (s := s)
  induction hn : c.length generalizing c s rounds with
  | zero =>
      obtain rfl := List.length_eq_zero_iff.mp hn
      obtain ⟨rounds, rfl⟩ : ∃ n, rounds = n + 1 := ⟨rounds - 1, by omega⟩
      rw [dropName, wp_bind, wp_get]
      split
      · rw [wp_bind, wp_lastResult htext hw, if_neg (not_not_intro rfl), wp_pure]
        exact ⟨htext, rfl⟩
      · rw [wp_pure]
        exact ⟨htext, rfl⟩
  | succ n ih =>
      obtain ⟨rounds, rfl⟩ : ∃ n, rounds = n + 1 := ⟨rounds - 1, by omega⟩
      have hcne : c ≠ [] := List.ne_nil_of_length_eq_add_one hn
      obtain ⟨d, x, rfl⟩ : ∃ d x, c = d ++ [x] :=
        ⟨c.dropLast, c.getLast hcne, (List.dropLast_concat_getLast hcne).symm⟩
      have hx : x ≠ slash := fun he => hc (he ▸ List.mem_append_right d List.mem_cons_self)
      have hlast : s.text = (t ++ slash :: d) ++ [x] := by
        rw [htext, List.append_assoc]
        rfl
      rw [hlast, List.length_append, List.length_append, List.length_cons,
        List.length_singleton] at hlen
      rw [List.length_append, List.length_singleton] at hn hrounds
      rw [dropName, wp_bind, wp_get, if_pos (by omega), wp_bind, wp_lastResult hlast hw, if_pos hx,
        wp_bind, wp_set]
      exact ih (text_back hlast) (fun h => hc (List.mem_append_left _ h))
        (Nat.le_trans (Nat.sub_le _ _) hw) (by omega) length_text (by omega)

theorem wp_isDot (hmax : path.length.toNat ≤ VFS_PATH_MAX) {i : Nat}
    (hrest : path.bytes.drop i = c ++ t) (hne : c ≠ []) (Q : Bool → Scan → Prop) :
    wp (isDot path i c.length) s Q ↔ Q (decide (c = [dot])) s := by
  obtain ⟨x, d, rfl⟩ : ∃ x d, c = x :: d := List.exists_cons_of_ne_nil hne
  obtain ⟨hlt, hchar, -⟩ := drop_cons hrest
  have hdot : ((x :: d).length = 1 ∧ x = dot) ↔ x :: d = [dot] := by
    constructor
    · rintro ⟨hl, rfl⟩
      rw [List.length_eq_zero_iff.mp (Nat.succ.inj hl)]
    · intro he
      obtain ⟨rfl, rfl⟩ := List.cons.inj he
      exact ⟨rfl, rfl⟩
  unfold isDot
  split
  · rename_i h1
    rw [wp_bind, wp_pathAt (by omega), hchar, wp_pure]
    simp only [← hdot, h1, true_and]
  · rename_i h1
    rw [wp_pure, decide_eq_false fun he => h1 (hdot.mpr he).1]

theorem strEqual_parent {name : Str} (h : name.length = 2) :
    strEqual name parentLiteral = (name.data 0 == dot && name.data 1 == dot) := by
  simp [strEqual, parentLiteral, h, List.range_succ]

theorem wp_isParent {start len : Nat} (hmax : path.length.toNat ≤ VFS_PATH_MAX)
    (hlen : start + len ≤ path.length.toNat) (Q : Bool → Scan → Prop) :
    wp (isParent path left start len) s Q ↔ Q (decide (len = 2 ∧ leftParent left start)) s := by
  unfold isParent
  split
  · rename_i h2
    subst h2
    have hm : VFS_PATH_MAX = 4096 := rfl
    have hs : (BitVec.ofNat 64 start).toNat = start := ofNat_toNat_lt (by omega)
    have hle : BitVec.ofNat 64 start ≤ (vfsPathAsStr path (left start)).length := by
      rw [BitVec.le_def, hs]
      exact Nat.le_trans (Nat.le_add_right _ _) hlen
    have hle2 : BitVec.ofNat 64 start + BitVec.ofNat 64 2
        ≤ (vfsPathAsStr path (left start)).length := by
      rw [BitVec.le_def, BitVec.toNat_add, hs, ofNat_toNat_lt (by omega)]
      exact Nat.le_trans (Nat.mod_le _ _) hlen
    unfold strSlice
    rw [wp_bind, wp_bind, wp_pathAssert hle, wp_bind, wp_pathAssert hle2, hs, wp_pure, wp_pure,
      strEqual_parent rfl]
    simp only [true_and, Bool.decide_eq_true]
    rfl
  · rename_i h2
    rw [wp_pure]
    simp [h2]

/-- The components kept are names. -/
def Walked.Ok (k : Walked) : Prop := ∀ c ∈ k.kept, c ≠ [] ∧ slash ∉ c

theorem absorb_ok {verdict : Nat → Bool} {tok : Token U8} {k' : Walked} (hk : k.Ok)
    (htok : ∀ start c, tok = .name start c → c ≠ [] ∧ slash ∉ c)
    (h : absorb verdict k tok = some k') : k'.Ok := by
  cases tok with
  | sep =>
      simp only [absorb] at h
      split at h
      · cases h
        exact hk
      · split at h
        · cases h
        · cases h
          exact hk
  | name start c =>
      simp only [absorb] at h
      split at h
      · cases h
        exact hk
      · split at h
        · cases h
          exact fun d hd => hk d (List.dropLast_subset _ hd)
        · split at h
          · cases h
          · cases h
            intro d hd
            rcases List.mem_append.mp hd with hd | hd
            · exact hk d hd
            · obtain rfl := List.mem_singleton.mp hd
              exact htok start d rfl

theorem text_closed (h : k.closed = true) : k.text = rendered slash k.kept ++ [slash] := by
  rw [Walked.text, if_pos h]

theorem text_open (h : k.closed = false) : k.text = rendered slash k.kept := by
  rw [Walked.text, h, if_neg Bool.false_ne_true, List.append_nil]

theorem text_pos (h : k.closed = true) : 0 < k.text.length := by
  rw [text_closed h, List.length_append]
  exact Nat.succ_pos _

/-- Without a slash at its end, the result is empty or ends with a character of a name. -/
theorem text_last (hk : k.Ok) (h : k.closed = false) :
    k.text = [] ∨ ∃ u x, k.text = u ++ [x] ∧ x ≠ slash := by
  rw [text_open h]
  rcases List.eq_nil_or_concat k.kept with hnil | ⟨ks, c, hc⟩
  · rw [hnil]
    exact Or.inl rfl
  · right
    rw [List.concat_eq_append] at hc
    have hmem : c ∈ k.kept := hc ▸ List.mem_append_right ks List.mem_cons_self
    obtain ⟨hne, hsep⟩ := hk c hmem
    refine ⟨rendered slash ks ++ slash :: c.dropLast, c.getLast hne, ?_, ?_⟩
    · rw [hc, rendered_snoc, List.append_assoc, List.cons_append,
        List.dropLast_concat_getLast hne]
    · exact fun he => hsep (he ▸ List.getLast_mem hne)

theorem wp_endsOpen (hs : s.text = k.text) (hk : k.Ok) (hw : s.w ≤ VFS_PATH_MAX)
    (Q : Bool → Scan → Prop) : wp endsOpen s Q ↔ Q (!k.closed) s := by
  have hlen := length_text (s := s)
  unfold endsOpen
  rw [wp_bind, wp_get]
  cases hc : k.closed with
  | true =>
      have hpos := text_pos hc
      rw [← hs, hlen] at hpos
      rw [text_closed hc] at hs
      rw [if_neg (Nat.ne_of_gt hpos), wp_bind, wp_lastResult hs hw, wp_pure]
      simp
  | false =>
      rcases text_last hk hc with hnil | ⟨u, x, hu, hx⟩
      · rw [hs, hnil, List.length_nil] at hlen
        rw [if_pos hlen.symm, wp_pure]
        rfl
      · rw [← hs] at hu
        rw [hu, List.length_append, List.length_singleton] at hlen
        rw [if_neg (by omega), wp_bind, wp_lastResult hu hw, wp_pure]
        simp [hx]

/-- The state after a round: the scan stopped, or has the text of `k` and stands at `i`. -/
def RoundEnds (o : Option Walked) (i : Nat) (go : Bool) (s : Scan) : Prop :=
  match o with
  | none => go = false
  | some k => go = true ∧ s.text = k.text ∧ s.r = i

/-- **A slash is one step.** -/
theorem wp_round_sep (hmax : path.length.toNat ≤ VFS_PATH_MAX) (hs : s.text = k.text)
    (hk : k.Ok) (hle : s.w ≤ s.r) (hrest : path.bytes.drop s.r = slash :: t) :
    wp (normalizeRound path left) s (RoundEnds (absorb (leftParent left) k .sep) (s.r + 1)) := by
  obtain ⟨hlt, hchar, -⟩ := drop_cons hrest
  have hlen : k.text.length = s.w := hs ▸ length_text
  unfold normalizeRound normalizeSlash
  rw [wp_bind, wp_get, wp_bind, wp_pathAt (by omega), hchar, if_pos rfl, wp_bind,
    wp_endsOpen hs hk (by omega), wp_bind]
  cases hc : k.closed with
  | true =>
      simp only [absorb, hc, Bool.not_true, Bool.false_eq_true, if_false, wp_pure, if_true, wp_bind,
        wp_modify]
      exact ⟨rfl, hs, rfl⟩
  | false =>
      simp only [absorb, hc, Bool.not_false, if_true, wp_putSlash, hlen, Bool.false_eq_true,
        if_false]
      split
      · rw [wp_pure]
        rfl
      · rename_i hfull
        rw [wp_bind, wp_modify, wp_pure]
        refine ⟨rfl, ?_, rfl⟩
        have hput : (s.put slash).text = k.text ++ [slash] := by
          rw [text_put (by omega), hs]
        rw [text_closed rfl, ← text_open hc]
        exact hput

theorem wp_popParent (hs : s.text = k.text) (hk : k.Ok) (hc : k.closed = true)
    (hw : s.w ≤ VFS_PATH_MAX) : wp popParent s fun _ s' =>
      s'.text = { k with kept := k.kept.dropLast : Walked }.text ∧ s'.r = s.r := by
  have hlen := length_text (s := s)
  have hafter : { k with kept := k.kept.dropLast : Walked }.text
      = rendered slash k.kept.dropLast ++ [slash] := text_closed hc
  rw [hafter]
  rw [text_closed hc] at hs
  unfold popParent
  rw [wp_bind, wp_get]
  rcases List.eq_nil_or_concat k.kept with hnil | ⟨ks, d, hd⟩
  · rw [hnil] at hs ⊢
    rw [hs] at hlen
    have hw1 : s.w = 1 := hlen.symm
    rw [if_neg (by omega), wp_pure]
    exact ⟨hs, rfl⟩
  · rw [List.concat_eq_append] at hd
    have hdsep : slash ∉ d := (hk d (hd ▸ List.mem_append_right ks List.mem_cons_self)).2
    rw [hd, rendered_snoc] at hs
    rw [hd, List.dropLast_concat]
    rw [hs] at hlen
    simp only [List.length_append, List.length_cons, List.length_nil] at hlen
    rw [if_pos (by omega), wp_bind, wp_modify, wp_bind, wp_get]
    refine wp_mono (wp_dropName (text_back hs) hdsep (Nat.le_trans (Nat.sub_le _ _) hw) ?_)
      fun _ s' h => h
    change d.length < s.w - 1
    omega

theorem wp_normalizeCopy {start : Nat} (hmax : path.length.toNat ≤ VFS_PATH_MAX)
    (hs : s.text = k.text) (hc : k.closed = true) (hw : s.w ≤ VFS_PATH_MAX)
    (hrest : path.bytes.drop start = c ++ t) :
    wp (normalizeCopy path start c.length) s fun go s' =>
      if VFS_PATH_MAX ≤ k.text.length + c.length then go = false
      else go = true ∧ s'.text = k.text ++ c ∧ s'.r = s.r := by
  have hlen : k.text.length = s.w := hs ▸ length_text
  have hbytes : ∀ i, i < c.length → start + i < path.length.toNat := by
    intro i hi
    have h := congrArg List.length hrest
    rw [List.length_drop, length_bytes, List.length_append] at h
    omega
  have hchar : ∀ i (hi : i < c.length), path.char (start + i) = c.get ⟨i, hi⟩ := by
    intro i hi
    have hat : path.bytes[start + i]? = some (c.get ⟨i, hi⟩) := by
      rw [← List.getElem?_drop, hrest, List.getElem?_append_left hi]
      exact List.getElem?_eq_getElem hi
    rw [bytes_at (hbytes i hi)] at hat
    exact Option.some.inj hat
  unfold normalizeCopy
  rw [wp_bind, wp_bind, wp_lastResult (by rw [hs, text_closed hc]) hw, if_neg (not_not_intro rfl),
    wp_pure, if_pos rfl, wp_bind, wp_get, hlen]
  split
  · rw [wp_pure]
  · rename_i hfit
    rw [wp_bind]
    refine wp_mono (wp_forUp (fun i s' => s'.text = k.text ++ c.take i ∧ s'.r = s.r)
      ⟨by rw [List.take_zero, List.append_nil, hs], rfl⟩ ?_) ?_
    · intro i s' hi hinv
      obtain ⟨htext, hr⟩ := hinv
      have hw' := length_text (s := s')
      rw [htext, List.length_append, List.length_take, Nat.min_eq_left (Nat.le_of_lt hi)] at hw'
      rw [wp_bind, wp_pathAt (Nat.lt_of_lt_of_le (hbytes i hi) hmax), wp_putResult (by omega)]
      refine ⟨?_, hr⟩
      rw [text_put (by omega), htext, hchar i hi, List.append_assoc, List.get_eq_getElem,
        List.take_append_getElem hi]
    · intro _ s' hinv
      rw [List.take_length] at hinv
      rw [wp_pure]
      exact ⟨rfl, hinv⟩

/-- **A name is one step.** -/
theorem wp_round_name (hmax : path.length.toNat ≤ VFS_PATH_MAX) (hs : s.text = k.text)
    (hk : k.Ok) (hc : k.closed = true) (hle : s.w ≤ s.r) (hrest : path.bytes.drop s.r = c ++ t)
    (hne : c ≠ []) (hsep : slash ∉ c) (ht : Cut slash t) :
    wp (normalizeRound path left) s
      (RoundEnds (absorb (leftParent left) k (.name s.r c)) (s.r + c.length)) := by
  obtain ⟨x, d, rfl⟩ : ∃ x d, c = x :: d := List.exists_cons_of_ne_nil hne
  obtain ⟨hlt, hchar, -⟩ := drop_cons hrest
  have hx : x ≠ slash := fun he => hsep (he ▸ List.mem_cons_self)
  have hbytes : s.r + (x :: d).length ≤ path.length.toNat := by
    have h := congrArg List.length hrest
    rw [List.length_drop, length_bytes, List.length_append] at h
    omega
  unfold normalizeRound
  rw [wp_bind, wp_get, wp_bind, wp_pathAt (by omega), hchar, if_neg hx, wp_bind]
  refine wp_mono (wp_skipName hmax hrest hsep ht (by omega)) ?_
  rintro _ s' rfl
  rw [wp_bind, wp_get]
  simp only [Nat.add_sub_cancel_left]
  rw [wp_bind, wp_isDot hmax hrest hne]
  rw [absorb]
  by_cases h1 : x :: d = [dot]
  · rw [if_pos (decide_eq_true h1), if_pos h1, wp_pure]
    exact ⟨rfl, hs, rfl⟩
  · rw [if_neg (fun h => h1 (of_decide_eq_true h)), if_neg h1, wp_bind, wp_isParent hmax hbytes]
    by_cases h2 : (x :: d).length = 2 ∧ leftParent left s.r = true
    · rw [if_pos (decide_eq_true h2), if_pos h2, wp_bind]
      refine wp_mono (wp_popParent (k := k) hs hk hc (Nat.le_trans hle (by omega))) ?_
      intro _ u hu
      rw [wp_pure]
      exact ⟨rfl, hu⟩
    · rw [if_neg (fun h => h2 (of_decide_eq_true h)), if_neg h2]
      refine wp_mono (wp_normalizeCopy hmax (k := k) hs hc (Nat.le_trans hle (by omega)) hrest) ?_
      intro go u hu
      split
      · rename_i hfull
        rw [if_pos hfull] at hu
        exact hu
      · rename_i hfit
        rw [if_neg hfit] at hu
        refine ⟨hu.1, ?_, hu.2.2⟩
        have hcopied : { kept := k.kept ++ [x :: d], closed := false : Walked }.text
            = k.text ++ x :: d := by
          rw [text_open rfl, rendered_snoc, text_closed hc, List.append_assoc]
          rfl
        rw [hu.2.1, hcopied]

theorem length_closed (h : k.closed = false) :
    { k with closed := true : Walked }.text.length = k.text.length + 1 := by
  rw [text_closed rfl, text_open h, List.length_append]
  rfl

theorem length_parent :
    { k with kept := k.kept.dropLast : Walked }.text.length ≤ k.text.length := by
  rcases List.eq_nil_or_concat k.kept with hnil | ⟨ks, d, hd⟩
  · simp [Walked.text, hnil]
  · rw [List.concat_eq_append] at hd
    simp only [Walked.text, hd, List.dropLast_concat, rendered_snoc, List.length_append]
    omega

theorem length_copied (h : k.closed = true) :
    { kept := k.kept ++ [c], closed := false : Walked }.text.length
      = k.text.length + c.length := by
  rw [text_closed h, text_open rfl]
  simp only [rendered_snoc, List.length_append, List.length_cons, List.length_nil]
  omega

theorem absorb_sep {verdict : Nat → Bool} {k' : Walked} (h : absorb verdict k .sep = some k') :
    k'.closed = true ∧ k'.text.length ≤ k.text.length + 1 := by
  simp only [absorb] at h
  split at h
  · rename_i hc
    cases h
    exact ⟨hc, Nat.le_add_right _ _⟩
  · rename_i hc
    split at h
    · cases h
    · cases h
      exact ⟨rfl, Nat.le_of_eq (length_closed (eq_false_of_ne_true hc))⟩

theorem absorb_name {verdict : Nat → Bool} {start : Nat} {k' : Walked} (hc : k.closed = true)
    (h : absorb verdict k (.name start c) = some k') :
    k'.text.length ≤ k.text.length + c.length := by
  simp only [absorb] at h
  split at h
  · cases h
    exact Nat.le_add_right _ _
  · split at h
    · cases h
      exact Nat.le_trans length_parent (Nat.le_add_right _ _)
    · split at h
      · cases h
      · cases h
        exact Nat.le_of_eq (length_copied hc)

/-- The whole scan on the result so far. -/
def walkTokens (verdict : Nat → Bool) (k : Walked) (toks : List (Token U8)) : Option Walked :=
  toks.foldlM (absorb verdict) k

theorem walkTokens_cons (verdict : Nat → Bool) (tok : Token U8) (toks : List (Token U8)) :
    walkTokens verdict k (tok :: toks)
      = (absorb verdict k tok).bind fun k' => walkTokens verdict k' toks :=
  List.foldlM_cons

/-- The end of the scan: it stopped, or has the text of `k`. -/
def ScanEnds (o : Option Walked) (go : Bool) (s : Scan) : Prop :=
  match o with
  | none => go = false
  | some k => go = true ∧ s.text = k.text ∧ k.Ok ∧ s.w ≤ VFS_PATH_MAX

/-- **The loop makes the steps of the tokens**, and accesses no character outside of the buffers. -/
theorem wp_normalizeLoop (hmax : path.length.toNat ≤ VFS_PATH_MAX) (i : Nat) (xs : List U8) :
    ∀ (k : Walked) (s : Scan) (rounds : Nat), path.bytes.drop i = xs → s.r = i →
      i ≤ path.length.toNat → s.text = k.text → k.Ok → (k.closed = true ∨ Cut slash xs) →
      s.w ≤ i → xs.length < rounds → wp (normalizeLoop path left rounds) s
        (ScanEnds (walkTokens (leftParent left) k (tokens slash i xs))) := by
  refine text_induction slash (P := fun i xs => ∀ (k : Walked) (s : Scan) (rounds : Nat),
    path.bytes.drop i = xs → s.r = i → i ≤ path.length.toNat → s.text = k.text → k.Ok →
    (k.closed = true ∨ Cut slash xs) → s.w ≤ i → xs.length < rounds →
    wp (normalizeLoop path left rounds) s
      (ScanEnds (walkTokens (leftParent left) k (tokens slash i xs)))) ?_ ?_ ?_ i xs
  · intro i k s rounds hrest hr hi hs hk hready hw hrounds
    obtain ⟨rounds, rfl⟩ : ∃ n, rounds = n + 1 := ⟨rounds - 1, by omega⟩
    have hend := List.drop_eq_nil_iff.mp hrest
    rw [length_bytes] at hend
    rw [normalizeLoop, wp_bind, wp_get, if_neg (by omega), wp_pure]
    exact ⟨rfl, hs, hk, by omega⟩
  · intro i t ih k s rounds hrest hr hi hs hk hready hw hrounds
    subst hr
    obtain ⟨rounds, rfl⟩ : ∃ n, rounds = n + 1 := ⟨rounds - 1, by omega⟩
    obtain ⟨hlt, -, hdrop⟩ := drop_cons hrest
    rw [normalizeLoop, wp_bind, wp_get, if_pos hlt, wp_bind, tokens_sep, walkTokens_cons]
    refine wp_mono (wp_round_sep hmax hs hk hw hrest) ?_
    intro go s' hafter
    cases ha : absorb (leftParent left) k .sep with
    | none =>
        rw [ha] at hafter
        rw [show go = false from hafter, if_neg Bool.false_ne_true, wp_pure]
        rfl
    | some k' =>
        rw [ha] at hafter
        obtain ⟨rfl, hs', hr'⟩ := hafter
        obtain ⟨hclosed, hsize⟩ := absorb_sep ha
        rw [if_pos rfl]
        refine ih k' s' rounds hdrop hr' hlt hs' (absorb_ok hk (fun _ _ h => by cases h) ha)
          (Or.inl hclosed) ?_ (Nat.lt_of_succ_lt_succ hrounds)
        rw [← length_text, hs']
        rw [← hs, length_text] at hsize
        exact Nat.le_trans hsize (Nat.add_le_add_right hw _)
  · intro i c t hne hsep ht ih k s rounds hrest hr hi hs hk hready hw hrounds
    subst hr
    obtain ⟨rounds, rfl⟩ : ∃ n, rounds = n + 1 := ⟨rounds - 1, by omega⟩
    obtain ⟨x, d, rfl⟩ : ∃ x d, c = x :: d := List.exists_cons_of_ne_nil hne
    obtain ⟨hlt, -, -⟩ := drop_cons hrest
    have hc : k.closed = true := by
      rcases hready with hc | hnil | ⟨u, hu⟩
      · exact hc
      · cases hnil
      · exact absurd (List.cons.inj hu).1 fun he => hsep (he ▸ List.mem_cons_self)
    have hdrop : path.bytes.drop (s.r + (x :: d).length) = t := by
      rw [← List.drop_drop, hrest, List.drop_left]
    rw [normalizeLoop, wp_bind, wp_get, if_pos hlt, wp_bind, tokens_name hne hsep ht,
      walkTokens_cons]
    refine wp_mono (wp_round_name hmax hs hk hc hw hrest hne hsep ht) ?_
    intro go s' hafter
    cases ha : absorb (leftParent left) k (.name s.r (x :: d)) with
    | none =>
        rw [ha] at hafter
        rw [show go = false from hafter, if_neg Bool.false_ne_true, wp_pure]
        rfl
    | some k' =>
        rw [ha] at hafter
        obtain ⟨rfl, hs', hr'⟩ := hafter
        have hsize := absorb_name hc ha
        have hok : k'.Ok := absorb_ok hk (fun _ _ h => by cases h; exact ⟨hne, hsep⟩) ha
        rw [if_pos rfl]
        refine ih k' s' rounds hdrop hr' ?_ hs' hok (Or.inr ht) ?_ ?_
        · have h := congrArg List.length hrest
          rw [List.length_drop, length_bytes, List.length_append] at h
          omega
        · rw [← length_text, hs']
          rw [← hs, length_text] at hsize
          exact Nat.le_trans hsize (Nat.add_le_add_right hw _)
        · rw [List.length_append, List.length_cons] at hrounds
          omega

/-- The path that the kept components make. -/
def finished (kept : List (List U8)) : List U8 :=
  if kept = [] then [slash] else rendered slash kept

theorem bytes_scan (hw : s.w ≤ VFS_PATH_MAX) :
    VfsPath.bytes { length := BitVec.ofNat 64 s.w, data := s.data } = s.text := by
  have hm : VFS_PATH_MAX = 4096 := rfl
  rw [VfsPath.bytes, Scan.text, ofNat_toNat_lt (by omega)]
  rfl

theorem wp_stripSlash (hs : s.text = k.text) (hk : k.Ok) (hw : s.w ≤ VFS_PATH_MAX) :
    wp stripSlash s fun _ s' => s'.w ≤ VFS_PATH_MAX ∧
      (s'.text = finished k.kept ∨ s'.text = [] ∧ finished k.kept = [slash]) := by
  have hlen := length_text (s := s)
  unfold stripSlash finished
  rw [wp_bind, wp_get]
  cases hc : k.closed with
  | true =>
      rw [text_closed hc] at hs
      by_cases hnil : k.kept = []
      · rw [hnil] at hs
        rw [hs] at hlen
        have hw1 : s.w = 1 := hlen.symm
        rw [if_neg (by omega), wp_pure, if_pos hnil]
        exact ⟨hw, Or.inl hs⟩
      · have hne : 0 < (rendered slash k.kept).length := by
          obtain ⟨c, cs, hcs⟩ := List.exists_cons_of_ne_nil hnil
          rw [hcs]
          exact Nat.succ_pos _
        rw [hs, List.length_append, List.length_singleton] at hlen
        rw [if_pos (by omega), wp_bind, wp_lastResult hs hw, if_pos rfl, wp_modify, if_neg hnil]
        exact ⟨Nat.le_trans (Nat.sub_le _ _) hw, Or.inl (text_back hs)⟩
  | false =>
      rcases text_last hk hc with hnil | ⟨u, x, hu, hx⟩
      · rw [hs, hnil, List.length_nil] at hlen
        rw [if_neg (by omega), wp_pure]
        refine ⟨hw, Or.inr ⟨hs.trans hnil, ?_⟩⟩
        rw [text_open hc] at hnil
        refine if_pos (Classical.byContradiction fun hne => ?_)
        obtain ⟨c, cs, hcs⟩ := List.exists_cons_of_ne_nil hne
        rw [hcs] at hnil
        cases hnil
      · have hkept : k.kept ≠ [] := by
          intro hnil
          rw [text_open hc, hnil] at hu
          exact List.cons_ne_nil _ _ (List.append_eq_nil_iff.mp hu.symm).2
        rw [text_open hc] at hs
        rw [if_neg hkept]
        split
        · rw [wp_bind, wp_lastResult (by rw [hs, ← text_open hc, hu]) hw, if_neg hx, wp_pure]
          exact ⟨hw, Or.inl hs⟩
        · rw [wp_pure]
          exact ⟨hw, Or.inl hs⟩

theorem wp_normalizeEnd (hs : s.text = k.text) (hk : k.Ok) (hw : s.w ≤ VFS_PATH_MAX) :
    wp normalizeEnd s fun res _ => res.length ≠ 0 ∧ res.bytes = finished k.kept := by
  have hm : VFS_PATH_MAX = 4096 := rfl
  have hret : ∀ u : Scan, 0 < u.w → u.w ≤ VFS_PATH_MAX → u.text = finished k.kept →
      ({ length := BitVec.ofNat 64 u.w, data := u.data : VfsPath }.length ≠ 0 ∧
        VfsPath.bytes { length := BitVec.ofNat 64 u.w, data := u.data } = finished k.kept) := by
    intro u hpos hle htext
    refine ⟨fun he => ?_, (bytes_scan hle).trans htext⟩
    have h := congrArg BitVec.toNat he
    rw [ofNat_toNat_lt (by omega)] at h
    exact Nat.ne_of_gt hpos h
  have hfin : 0 < (finished k.kept).length := by
    unfold finished
    split
    · exact Nat.one_pos
    · rename_i hne
      obtain ⟨c, cs, hcs⟩ := List.exists_cons_of_ne_nil hne
      rw [hcs]
      exact Nat.succ_pos _
  unfold normalizeEnd putRoot
  rw [wp_bind]
  refine wp_mono (wp_stripSlash hs hk hw) ?_
  intro _ u hu
  obtain ⟨hle, htext⟩ := hu
  have hlen := length_text (s := u)
  rw [wp_bind, wp_bind, wp_get]
  rcases htext with htext | ⟨hnil, hroot⟩
  · rw [htext] at hlen
    rw [if_neg (by omega), wp_pure, wp_bind, wp_get, wp_pure]
    exact hret u (by omega) hle htext
  · rw [hnil, List.length_nil] at hlen
    rw [if_pos hlen.symm, wp_putResult (by omega), wp_bind, wp_get, wp_pure]
    refine hret (u.put slash) (Nat.succ_pos _) (by change u.w + 1 ≤ _; omega) ?_
    rw [text_put (by omega), hnil, hroot]
    rfl

/-- **The function walks the tokens of the path.** -/
theorem wp_vfsPathNormalize (h : Rooted path) (left : Nat → Nat → U8) :
    wp (vfsPathNormalize path left) scanStart fun res _ =>
      match walkTokens (leftParent left) ⟨[], false⟩ (tokens slash 0 path.bytes) with
      | none => res.length = 0
      | some k => res.length ≠ 0 ∧ res.bytes = finished k.kept := by
  have hcut : Cut slash path.bytes := Or.inr (bytes_root h)
  unfold vfsPathNormalize
  rw [wp_bind, wp_pathAssert (show 0 < path.length from h.pos), wp_bind, wp_pathAssert h.root,
    wp_bind]
  refine wp_mono (wp_normalizeLoop h.max 0 path.bytes ⟨[], false⟩ scanStart _ List.drop_zero rfl
    (Nat.zero_le _) rfl (fun c hc => absurd hc List.not_mem_nil) (Or.inr hcut) (Nat.le_refl _)
    (by rw [length_bytes]; exact Nat.lt_succ_self _)) ?_
  intro go s' hdone
  cases hwalk : walkTokens (leftParent left) ⟨[], false⟩ (tokens slash 0 path.bytes) with
  | none =>
      rw [hwalk] at hdone
      rw [show go = false from hdone, if_neg Bool.false_ne_true, wp_pure]
      rfl
  | some k =>
      rw [hwalk] at hdone
      obtain ⟨rfl, hs, hk, hw⟩ := hdone
      rw [if_pos rfl]
      exact wp_normalizeEnd hs hk hw

end Rounds

/-! ## 5. The canonical form -/

/-- A piece between slashes, on the components kept. -/
def keep (kept : List (List U8)) (c : List U8) : List (List U8) :=
  if c = [] ∨ c = [dot] then kept
  else if c = [dot, dot] then kept.dropLast
  else kept ++ [c]

/-- The path split at slashes, its pieces kept or not, and the rest joined. -/
def canonical (bytes : List U8) : List U8 := finished ((bytes.splitOn slash).foldl keep [])

/-- A name, where `verdict` decides about those of two characters. -/
def keepBy (verdict : Nat → Bool) (kept : List (List U8)) (p : Nat × List U8) : List (List U8) :=
  if p.2 = [dot] then kept
  else if p.2.length = 2 ∧ verdict p.1 then kept.dropLast
  else kept ++ [p.2]

/-- Nothing is left out: no slash behind a slash, and each name is kept. -/
def Clean (verdict : Nat → Bool) : Bool → List (Token U8) → Prop
  | _, [] => True
  | closed, .sep :: ts => closed = false ∧ Clean verdict true ts
  | _, .name start c :: ts =>
      c ≠ [dot] ∧ ¬ (c.length = 2 ∧ verdict start) ∧ Clean verdict false ts

section Canonical

variable {verdict : Nat → Bool} {k k' : Walked} {kept : List (List U8)}

theorem walkTokens_kept {ts : List (Token U8)} (h : walkTokens verdict k ts = some k') :
    k'.kept = (ts.filterMap Token.name?).foldl (keepBy verdict) k.kept := by
  induction ts generalizing k with
  | nil =>
      cases h
      rfl
  | cons tok ts ih =>
      rw [walkTokens_cons] at h
      obtain ⟨k₁, h₁, h⟩ := Option.bind_eq_some_iff.mp h
      rw [ih h]
      cases tok with
      | sep =>
          have hk : k₁.kept = k.kept := by
            simp only [absorb] at h₁
            split at h₁
            · cases h₁
              rfl
            · split at h₁
              · cases h₁
              · cases h₁
                rfl
          rw [hk]
          rfl
      | name start c =>
          have hk : k₁.kept = keepBy verdict k.kept (start, c) := by
            simp only [absorb] at h₁
            unfold keepBy
            split at h₁
            · rename_i hd
              cases h₁
              rw [if_pos hd]
            · rename_i hd
              split at h₁
              · rename_i hp
                cases h₁
                rw [if_neg hd, if_pos hp]
              · rename_i hp
                split at h₁
                · cases h₁
                · cases h₁
                  rw [if_neg hd, if_neg hp]
          rw [hk]
          rfl

/-- **When the result does not fit**: in a path of the full length of which nothing is left out. -/
theorem walkTokens_none_iff (verdict : Nat → Bool) (i : Nat) (xs : List U8) : ∀ k : Walked,
    (k.closed = true ∨ Cut slash xs) → k.text.length + xs.length ≤ VFS_PATH_MAX →
    (walkTokens verdict k (tokens slash i xs) = none ↔ xs ≠ [] ∧
      k.text.length + xs.length = VFS_PATH_MAX ∧ Clean verdict k.closed (tokens slash i xs)) := by
  refine text_induction slash (P := fun i xs => ∀ k : Walked,
    (k.closed = true ∨ Cut slash xs) → k.text.length + xs.length ≤ VFS_PATH_MAX →
    (walkTokens verdict k (tokens slash i xs) = none ↔ xs ≠ [] ∧
      k.text.length + xs.length = VFS_PATH_MAX ∧ Clean verdict k.closed (tokens slash i xs)))
    ?_ ?_ ?_ i xs
  · intro i k hready hle
    exact ⟨fun h => (Option.some_ne_none _ h).elim, fun h => absurd rfl h.1⟩
  · intro i t ih k hready hle
    rw [List.length_cons] at hle
    rw [tokens_sep, walkTokens_cons, List.length_cons]
    cases hc : k.closed with
    | true =>
        have ha : absorb verdict k .sep = some k := by rw [absorb, if_pos hc]
        rw [ha, Option.bind_some, ih k (Or.inl hc) (by omega)]
        constructor
        · rintro ⟨-, hlen, -⟩
          omega
        · rintro ⟨-, -, hf, -⟩
          cases hf
    | false =>
        by_cases hfull : VFS_PATH_MAX - 1 ≤ k.text.length
        · have ha : absorb verdict k .sep = none := by
            rw [absorb, if_neg (by rw [hc]; exact Bool.false_ne_true), if_pos hfull]
          have hm : VFS_PATH_MAX = 4096 := rfl
          obtain rfl : t = [] := List.length_eq_zero_iff.mp (by omega)
          rw [ha, List.length_nil]
          exact ⟨fun _ => ⟨List.cons_ne_nil _ _, by omega, rfl, trivial⟩, fun _ => rfl⟩
        · have ha : absorb verdict k .sep = some { k with closed := true } := by
            rw [absorb, if_neg (by rw [hc]; exact Bool.false_ne_true), if_neg hfull]
          have hlen := length_closed hc
          rw [ha, Option.bind_some, ih _ (Or.inl rfl) (by omega), hlen]
          constructor
          · rintro ⟨-, hmax, hclean⟩
            exact ⟨List.cons_ne_nil _ _, by omega, rfl, hclean⟩
          · rintro ⟨-, hmax, -, hclean⟩
            refine ⟨?_, by omega, hclean⟩
            rintro rfl
            rw [List.length_nil] at hmax
            omega
  · intro i c t hne hsep ht ih k hready hle
    have hc : k.closed = true := by
      rcases hready with hc | hnil | ⟨u, hu⟩
      · exact hc
      · exact absurd (List.append_eq_nil_iff.mp hnil).1 hne
      · obtain ⟨x, d, rfl⟩ := List.exists_cons_of_ne_nil hne
        exact absurd (List.cons.inj hu).1 fun he => hsep (he ▸ List.mem_cons_self)
    have hpos : 0 < c.length := List.length_pos_iff.mpr hne
    have happ : c ++ t ≠ [] := fun he => hne (List.append_eq_nil_iff.mp he).1
    rw [List.length_append] at hle
    rw [tokens_name hne hsep ht, walkTokens_cons, List.length_append]
    by_cases hd : c = [dot]
    · have ha : absorb verdict k (.name i c) = some k := by rw [absorb, if_pos hd]
      rw [ha, Option.bind_some, ih k (Or.inl hc) (by omega)]
      constructor
      · rintro ⟨-, hlen, -⟩
        omega
      · rintro ⟨-, -, hnd, -⟩
        exact absurd hd hnd
    · by_cases hp : c.length = 2 ∧ verdict i = true
      · have ha : absorb verdict k (.name i c) = some { k with kept := k.kept.dropLast } := by
          rw [absorb, if_neg hd, if_pos hp]
        have hlen := length_parent (k := k)
        rw [ha, Option.bind_some, ih { k with kept := k.kept.dropLast } (Or.inl hc) (by omega)]
        constructor
        · rintro ⟨-, hmax, -⟩
          omega
        · rintro ⟨-, -, -, hnp, -⟩
          exact absurd hp hnp
      · by_cases hfull : VFS_PATH_MAX ≤ k.text.length + c.length
        · have ha : absorb verdict k (.name i c) = none := by
            rw [absorb, if_neg hd, if_neg hp, if_pos hfull]
          obtain rfl : t = [] := List.length_eq_zero_iff.mp (by omega)
          rw [ha, List.length_nil]
          exact ⟨fun _ => ⟨happ, by omega, hd, hp, trivial⟩, fun _ => rfl⟩
        · have ha : absorb verdict k (.name i c)
              = some { kept := k.kept ++ [c], closed := false } := by
            rw [absorb, if_neg hd, if_neg hp, if_neg hfull]
          have hlen := length_copied (c := c) hc
          rw [ha, Option.bind_some, ih _ (Or.inr ht) (by omega), hlen]
          constructor
          · rintro ⟨-, hmax, hclean⟩
            exact ⟨happ, by omega, hd, hp, hclean⟩
          · rintro ⟨-, hmax, -, -, hclean⟩
            refine ⟨?_, by omega, hclean⟩
            rintro rfl
            rw [List.length_nil] at hmax
            omega

/-- What is clean, said of the text. -/
theorem clean_iff (verdict : Nat → Bool) (i : Nat) (xs : List U8) : ∀ closed : Bool,
    (Clean verdict closed (tokens slash i xs) ↔ ¬ (closed = true ∧ xs.head? = some slash) ∧
      ¬ [slash, slash] <:+: xs ∧
      ∀ p ∈ names slash i xs, p.2 ≠ [dot] ∧ ¬ (p.2.length = 2 ∧ verdict p.1 = true)) := by
  refine text_induction slash (P := fun i xs => ∀ closed : Bool,
    (Clean verdict closed (tokens slash i xs) ↔ ¬ (closed = true ∧ xs.head? = some slash) ∧
      ¬ [slash, slash] <:+: xs ∧
      ∀ p ∈ names slash i xs, p.2 ≠ [dot] ∧ ¬ (p.2.length = 2 ∧ verdict p.1 = true))) ?_ ?_ ?_ i xs
  · intro i closed
    refine ⟨fun _ => ⟨?_, ?_, ?_⟩, fun _ => trivial⟩
    · rintro ⟨-, h⟩
      cases h
    · exact fun h => List.cons_ne_nil _ _ (List.infix_nil.mp h)
    · intro p hp
      cases hp
  · intro i t ih closed
    have hinfix : [slash, slash] <:+: slash :: t ↔
        t.head? = some slash ∨ [slash, slash] <:+: t := by
      rw [List.infix_cons_iff, List.cons_prefix_cons, List.head?_eq_some_iff]
      refine or_congr_left ⟨?_, ?_⟩
      · rintro ⟨-, u, hu⟩
        exact ⟨u, hu.symm⟩
      · rintro ⟨u, hu⟩
        exact ⟨rfl, u, hu.symm⟩
    rw [tokens_sep, Clean, ih true, names_sep, hinfix]
    simp only [List.head?_cons, true_and, and_true, Bool.not_eq_true, not_or, and_assoc]
  · intro i c t hne hsep ht ih closed
    have hhead : (c ++ t).head? ≠ some slash := by
      obtain ⟨x, d, rfl⟩ := List.exists_cons_of_ne_nil hne
      exact fun he => hsep (Option.some.inj he ▸ List.mem_cons_self)
    rw [tokens_name hne hsep ht, Clean, ih false, names_name hne hsep ht, infix_name hsep]
    simp only [List.forall_mem_cons, Bool.false_eq_true, false_and, not_false_eq_true, true_and,
      hhead, and_false]
    constructor
    · rintro ⟨hd, hp, hin, hrest⟩
      exact ⟨hin, ⟨hd, hp⟩, hrest⟩
    · rintro ⟨hin, ⟨hd, hp⟩, hrest⟩
      exact ⟨hd, hp, hin, hrest⟩

/-! ## 6. What the copy decides -/

theorem keep_name {p : Nat × List U8} (hne : p.2 ≠ [])
    (h : p.2.length = 2 → (verdict p.1 = true ↔ p.2 = [dot, dot])) :
    keepBy verdict kept p = keep kept p.2 := by
  unfold keepBy keep
  by_cases hd : p.2 = [dot]
  · rw [if_pos hd, if_pos (Or.inr hd)]
  · rw [if_neg hd, if_neg (not_or.mpr ⟨hne, hd⟩)]
    by_cases hp : p.2 = [dot, dot]
    · have h2 : p.2.length = 2 := by rw [hp]; rfl
      rw [if_pos hp, if_pos ⟨h2, (h h2).mpr hp⟩]
    · rw [if_neg hp, if_neg fun h2 => hp ((h h2.1).mp h2.2)]

/-- Where the copy tells the truth, the names are kept as the canonical form keeps them. -/
theorem foldl_keepBy {ns : List (Nat × List U8)} (hne : ∀ p ∈ ns, p.2 ≠ [])
    (h : ∀ p ∈ ns, p.2.length = 2 → (verdict p.1 = true ↔ p.2 = [dot, dot])) :
    ns.foldl (keepBy verdict) kept = (ns.map Prod.snd).foldl keep kept := by
  induction ns generalizing kept with
  | nil => rfl
  | cons p ns ih =>
      rw [List.map_cons, List.foldl_cons, List.foldl_cons,
        keep_name (hne p List.mem_cons_self) (h p List.mem_cons_self)]
      exact ih (fun q hq => hne q (List.mem_cons_of_mem p hq))
        fun q hq => h q (List.mem_cons_of_mem p hq)

theorem foldl_keep_filter (cs : List (List U8)) :
    (cs.filter (· ≠ [])).foldl keep kept = cs.foldl keep kept := by
  induction cs generalizing kept with
  | nil => rfl
  | cons c cs ih =>
      by_cases hc : c = []
      · rw [List.filter_cons_of_neg (by simp [hc]), ih, List.foldl_cons, keep, if_pos (Or.inl hc)]
      · rw [List.filter_cons_of_pos (by simp [hc]), List.foldl_cons, List.foldl_cons, ih]

theorem canonical_names (xs : List U8) :
    canonical xs = finished (((names slash 0 xs).map Prod.snd).foldl keep []) := by
  rw [canonical, names_splitOn, foldl_keep_filter]

/-- Names that are not of two characters are kept, all but ".". -/
theorem foldl_longer {ns : List (Nat × List U8)} (h : ∀ p ∈ ns, p.2.length ≠ 2) :
    ns.foldl (keepBy verdict) kept = kept ++ (ns.map Prod.snd).filter (· ≠ [dot]) := by
  induction ns generalizing kept with
  | nil => exact (List.append_nil kept).symm
  | cons p ns ih =>
      have hp := h p List.mem_cons_self
      rw [List.foldl_cons, ih fun q hq => h q (List.mem_cons_of_mem p hq), List.map_cons, keepBy]
      by_cases hd : p.2 = [dot]
      · rw [if_pos hd, List.filter_cons_of_neg (by simp [hd])]
      · rw [if_neg hd, if_neg fun h2 => hp h2.1, List.filter_cons_of_pos (by simp [hd]),
          List.append_assoc]
        rfl

theorem foldl_mem {cs : List (List U8)} {c : List U8} (h : c ∈ cs.foldl keep kept) :
    c ∈ kept ∨ c ∈ cs ∧ c ≠ [dot, dot] := by
  induction cs generalizing kept with
  | nil => exact Or.inl h
  | cons d cs ih =>
      rcases ih h with h | ⟨h, hne⟩
      · unfold keep at h
        split at h
        · exact Or.inl h
        · split at h
          · exact Or.inl (List.dropLast_subset _ h)
          · rename_i hd
            rcases List.mem_append.mp h with h | h
            · exact Or.inl h
            · obtain rfl := List.mem_singleton.mp h
              exact Or.inr ⟨List.mem_cons_self, hd⟩
      · exact Or.inr ⟨List.mem_cons_of_mem d h, hne⟩

/-- Different components make different paths. -/
theorem finished_inj {kept' : List (List U8)} (h : ∀ c ∈ kept, c ≠ [] ∧ slash ∉ c)
    (h' : ∀ c ∈ kept', c ≠ [] ∧ slash ∉ c) (he : finished kept = finished kept') :
    kept = kept' := by
  have hone : ∀ l : List (List U8), (∀ c ∈ l, c ≠ [] ∧ slash ∉ c) → l ≠ [] →
      [slash] ≠ rendered slash l := by
    intro l hl hne
    obtain ⟨c, cs, rfl⟩ := List.exists_cons_of_ne_nil hne
    intro heq
    have hnil : c ++ rendered slash cs = [] := ((List.cons.inj heq).2).symm
    exact (hl c List.mem_cons_self).1 (List.append_eq_nil_iff.mp hnil).1
  unfold finished at he
  split at he
  · rename_i hnil
    split at he
    · rename_i hnil'
      rw [hnil, hnil']
    · rename_i hne
      exact absurd he (hone kept' h' hne)
  · rename_i hne
    split at he
    · exact absurd he.symm (hone kept h hne)
    · exact rendered_inj (fun c hc => (h c hc).2) (fun c hc => (h' c hc).2) he

end Canonical

/-! ## 7. Main results -/

/-- What the function owes for a path, where the dead copies hold `left`: it returns, and a path
    that is not null is the canonical one. -/
def Normalizes (path : VfsPath) (left : Nat → Nat → U8) : Prop :=
  wp (vfsPathNormalize path left) scanStart fun res _ =>
    res.length ≠ 0 → res.bytes = canonical path.bytes

section Exact

variable {path : VfsPath} {left : Nat → Nat → U8}

theorem normalizes_iff (h : Rooted path) : Normalizes path left ↔
    ∀ k, walkTokens (leftParent left) ⟨[], false⟩ (tokens slash 0 path.bytes) = some k →
      finished k.kept = canonical path.bytes := by
  have hrun := wp_vfsPathNormalize h left
  constructor
  · intro hn k hk
    obtain ⟨res, s', -, hcanon, hres⟩ := wp_and hn hrun
    rw [hk] at hres
    exact hres.2.symm.trans (hcanon hres.1)
  · intro hk
    refine wp_mono hrun fun res s' hres hne => ?_
    cases hw : walkTokens (leftParent left) ⟨[], false⟩ (tokens slash 0 path.bytes) with
    | none =>
        rw [hw] at hres
        exact absurd (BitVec.eq_of_toNat_eq (congrArg BitVec.toNat hres)) hne
    | some k =>
        rw [hw] at hres
        exact hres.2.trans (hk k hw)

theorem names_ok : ∀ p ∈ names slash 0 path.bytes, p.2 ≠ [] ∧ slash ∉ p.2 := by
  intro p hp
  obtain ⟨-, hne, hsep, -⟩ := names_at 0 path.bytes p hp
  exact ⟨hne, hsep⟩

/-- A copy that tells the truth about the components of two characters. -/
theorem normalizes_of_truth (h : Rooted path) (ht : ∀ p ∈ names slash 0 path.bytes,
    p.2.length = 2 → (leftParent left p.1 = true ↔ p.2 = [dot, dot])) : Normalizes path left := by
  refine (normalizes_iff h).mpr fun k hk => ?_
  rw [walkTokens_kept hk, canonical_names, ← foldl_keepBy (fun p hp => (names_ok p hp).1) ht]
  rfl

/-- The characters of the path tell the truth. -/
theorem char_truth : ∀ p ∈ names slash 0 path.bytes, p.2.length = 2 →
    ((path.char p.1 == dot && path.char (p.1 + 1) == dot) = true ↔ p.2 = [dot, dot]) := by
  intro p hp hlen
  obtain ⟨-, -, -, hat⟩ := names_at 0 path.bytes p hp
  have hend := names_end 0 path.bytes p hp
  rw [length_bytes, hlen, Nat.zero_add] at hend
  have hchar : ∀ j, (hj : j < p.2.length) → path.char (p.1 + j) = p.2[j] := by
    intro j hj
    have hj' := hat j hj
    rw [Nat.sub_zero, bytes_at (by omega), List.getElem?_eq_getElem hj] at hj'
    exact Option.some.inj hj'
  obtain ⟨a, b, hab⟩ := List.length_eq_two.mp hlen
  have ha := hchar 0 (by omega)
  have hb := hchar 1 (by omega)
  simp only [hab, Nat.add_zero, List.getElem_cons_zero, List.getElem_cons_succ] at ha hb
  rw [ha, hb, hab]
  simp

/-- **Every path is normalized where the copies keep their bytes.** -/
theorem vfsPathNormalize_kept (h : Rooted path)
    (hleft : ∀ start i, i < path.length.toNat → left start i = path.char i) :
    Normalizes path left := by
  refine normalizes_of_truth h fun p hp hlen => ?_
  have hend := names_end 0 path.bytes p hp
  rw [length_bytes, hlen, Nat.zero_add] at hend
  rw [leftParent, hleft p.1 _ (by omega), hleft p.1 _ (by omega)]
  exact char_truth p hp hlen

/-- The path has the full length and one component of two characters, "..", and is canonical but for
    it: the result is too long where the copy hides that component. -/
def LastRoom (bytes : List U8) : Prop :=
  bytes.length = VFS_PATH_MAX ∧ ¬ [slash, slash] <:+: bytes ∧ [dot] ∉ bytes.splitOn slash ∧
    (bytes.splitOn slash).filter (·.length = 2) = [[dot, dot]]

/-- The components of two characters are among the names. -/
theorem twos_names (xs : List U8) : (xs.splitOn slash).filter (·.length = 2)
    = ((names slash 0 xs).map Prod.snd).filter (·.length = 2) := by
  rw [names_splitOn, List.filter_filter]
  refine List.filter_congr fun c _ => ?_
  by_cases hc : c = []
  · subst hc
    rfl
  · simp [hc]

theorem mem_names {c : List U8} (hc : c ≠ []) : c ∈ path.bytes.splitOn slash ↔
    c ∈ (names slash 0 path.bytes).map Prod.snd := by
  rw [names_splitOn, List.mem_filter]
  simp [hc]

/-- The result too long, for the whole path. -/
theorem walkTokens_start_none (h : Rooted path) (verdict : Nat → Bool) :
    walkTokens verdict ⟨[], false⟩ (tokens slash 0 path.bytes) = none ↔
      path.bytes.length = VFS_PATH_MAX ∧ ¬ [slash, slash] <:+: path.bytes ∧
      ∀ p ∈ names slash 0 path.bytes, p.2 ≠ [dot] ∧ ¬ (p.2.length = 2 ∧ verdict p.1 = true) := by
  have hcut : Cut slash path.bytes := Or.inr (bytes_root h)
  have hlen : path.bytes.length ≤ VFS_PATH_MAX := by
    rw [length_bytes]
    exact h.max
  have hstart : (⟨[], false⟩ : Walked).text.length = 0 := rfl
  rw [walkTokens_none_iff verdict 0 path.bytes ⟨[], false⟩ (Or.inr hcut) (by omega), hstart,
    Nat.zero_add, clean_iff]
  have hne : path.bytes ≠ [] := by
    obtain ⟨t, ht⟩ := bytes_root h
    rw [ht]
    exact List.cons_ne_nil _ _
  constructor
  · rintro ⟨-, hmax, -, hclean⟩
    exact ⟨hmax, hclean⟩
  · rintro ⟨hmax, hclean⟩
    exact ⟨hne, hmax, fun hf => Bool.false_ne_true hf.1, hclean⟩

/-- Components kept by any verdict are names. -/
theorem foldl_keepBy_ok {verdict : Nat → Bool} {ns : List (Nat × List U8)}
    {kept : List (List U8)} (hk : ∀ c ∈ kept, c ≠ [] ∧ slash ∉ c)
    (hns : ∀ p ∈ ns, p.2 ≠ [] ∧ slash ∉ p.2) :
    ∀ c ∈ ns.foldl (keepBy verdict) kept, c ≠ [] ∧ slash ∉ c := by
  induction ns generalizing kept with
  | nil => exact hk
  | cons p ns ih =>
      refine ih ?_ fun q hq => hns q (List.mem_cons_of_mem p hq)
      intro c hc
      unfold keepBy at hc
      split at hc
      · exact hk c hc
      · split at hc
        · exact hk c (List.dropLast_subset _ hc)
        · rcases List.mem_append.mp hc with hc | hc
          · exact hk c hc
          · obtain rfl := List.mem_singleton.mp hc
            exact hns p List.mem_cons_self

/-- A verdict that keeps other components makes another path. -/
theorem not_normalizes (h : Rooted path) {k : Walked}
    (hk : walkTokens (leftParent left) ⟨[], false⟩ (tokens slash 0 path.bytes) = some k)
    (hne : k.kept ≠ ((names slash 0 path.bytes).map Prod.snd).foldl keep []) :
    ¬ Normalizes path left := by
  intro hn
  have heq := (normalizes_iff h).mp hn k hk
  rw [canonical_names] at heq
  refine hne (finished_inj ?_ ?_ heq)
  · rw [walkTokens_kept hk]
    exact foldl_keepBy_ok (fun c hc => nomatch hc) names_ok
  · intro c hc
    rcases foldl_mem hc with hc | hc
    · cases hc
    · obtain ⟨p, hp, rfl⟩ := List.mem_map.mp hc.1
      exact names_ok p hp

/-- The last component of two characters: a copy that is wrong about it makes another path, if the
    result fits. -/
theorem wrong_on_last (h : Rooted path) {pre post : List (Nat × List U8)} {p : Nat × List U8}
    (hnames : names slash 0 path.bytes = pre ++ p :: post) (hp : p.2.length = 2)
    (hpost : ∀ q ∈ post, ¬ q.2.length = 2) (hlast : ¬ LastRoom path.bytes) :
    ∃ left, ¬ Normalizes path left := by
  have hmem : p ∈ names slash 0 path.bytes := hnames ▸ List.mem_append_right pre List.mem_cons_self
  have hpre : ∀ q ∈ pre, q ∈ names slash 0 path.bytes := fun q hq =>
    hnames ▸ List.mem_append_left _ hq
  have hstart : ∀ q ∈ pre, q.1 ≠ p.1 := by
    intro q hq
    have hsorted : (names slash 0 path.bytes).Pairwise _ := names_sorted 0 path.bytes
    rw [hnames] at hsorted
    have hle := (List.pairwise_append.mp hsorted).2.2 q hq p List.mem_cons_self
    have hpos := List.length_pos_iff.mpr (names_ok q (hpre q hq)).1
    omega
  have hdot : p.2 ≠ [dot] := fun he => by rw [he] at hp; cases hp
  have htail : ∀ (v : Nat → Bool) (K : List (List U8)),
      post.foldl (keepBy v) K = K ++ (post.map Prod.snd).filter (· ≠ [dot]) :=
    fun v K => foldl_longer hpost
  by_cases hparent : p.2 = [dot, dot]
  · -- the copy hides "..", and shows every other component of two characters as ".."
    refine ⟨fun start _ => if start = p.1 then slash else dot, ?_⟩
    generalize hl : (fun start _ => if start = p.1 then slash else dot : Nat → Nat → U8) = left
    have hv : leftParent left p.1 = false := by
      rw [← hl]
      simp [leftParent, slash, dot]
    have hvother : ∀ q ∈ pre, leftParent left q.1 = true := by
      intro q hq
      rw [← hl]
      simp [leftParent, hstart q hq]
    cases hwalk : walkTokens (leftParent left) ⟨[], false⟩ (tokens slash 0 path.bytes) with
    | none =>
        obtain ⟨hmax, hslash, hclean⟩ := (walkTokens_start_none h _).mp hwalk
        refine absurd ⟨hmax, hslash, ?_, ?_⟩ hlast
        · rw [mem_names (List.cons_ne_nil _ _)]
          intro hd
          obtain ⟨q, hq, hqd⟩ := List.mem_map.mp hd
          exact (hclean q hq).1 hqd
        · have htwo : ∀ q ∈ pre, ¬ q.2.length = 2 := fun q hq h2 =>
            (hclean q (hpre q hq)).2 ⟨h2, hvother q hq⟩
          have hnone : ∀ l : List (Nat × List U8), (∀ q ∈ l, ¬ q.2.length = 2) →
              (l.map Prod.snd).filter (·.length = 2) = [] := by
            intro l hl
            refine List.filter_eq_nil_iff.mpr fun c hc => ?_
            obtain ⟨q, hq, rfl⟩ := List.mem_map.mp hc
            simpa using hl q hq
          rw [twos_names, hnames, List.map_append, List.filter_append, hnone pre htwo,
            List.map_cons, List.filter_cons_of_pos (by simpa using hp), hnone post hpost, hparent]
          rfl
    | some k =>
        refine not_normalizes h hwalk fun heq => ?_
        have hin : [dot, dot] ∈ k.kept := by
          have hfold : (names slash 0 path.bytes).foldl (keepBy (leftParent left)) []
              = post.foldl (keepBy (leftParent left))
                  (pre.foldl (keepBy (leftParent left)) [] ++ [p.2]) := by
            rw [hnames, List.foldl_append, List.foldl_cons, keepBy, if_neg hdot,
              if_neg fun h2 => Bool.false_ne_true (hv.symm.trans h2.2)]
          rw [walkTokens_kept hwalk]
          change [dot, dot] ∈ (names slash 0 path.bytes).foldl _ _
          rw [hfold, htail, hparent]
          exact List.mem_append_left _ (List.mem_append_right _ List.mem_cons_self)
        rw [heq] at hin
        rcases foldl_mem hin with hin | hin
        · cases hin
        · exact hin.2 rfl
  · -- the copy shows ".." in its place, and is right about the others
    refine ⟨fun start i => if start = p.1 then dot else path.char i, ?_⟩
    generalize hl : (fun start i => if start = p.1 then dot else path.char i : Nat → Nat → U8)
      = left
    have hv : leftParent left p.1 = true := by
      rw [← hl]
      simp [leftParent]
    have hvother : ∀ q ∈ pre, q.2.length = 2 →
        (leftParent left q.1 = true ↔ q.2 = [dot, dot]) := by
      intro q hq h2
      rw [← char_truth q (hpre q hq) h2, ← hl]
      simp [leftParent, hstart q hq]
    cases hwalk : walkTokens (leftParent left) ⟨[], false⟩ (tokens slash 0 path.bytes) with
    | none => exact absurd ⟨hp, hv⟩ (((walkTokens_start_none h _).mp hwalk).2.2 p hmem).2
    | some k =>
        refine not_normalizes h hwalk fun heq => ?_
        have hpne : p.2 ≠ [] := (names_ok p hmem).1
        have hkept : k.kept = ((pre.map Prod.snd).foldl keep []).dropLast
            ++ (post.map Prod.snd).filter (· ≠ [dot]) := by
          rw [walkTokens_kept hwalk]
          change (names slash 0 path.bytes).foldl _ _ = _
          rw [hnames, List.foldl_append, List.foldl_cons, htail,
            foldl_keepBy (fun q hq => (names_ok q (hpre q hq)).1) hvother, keepBy, if_neg hdot,
            if_pos ⟨hp, hv⟩]
        have hcanon : ((names slash 0 path.bytes).map Prod.snd).foldl keep []
            = (pre.map Prod.snd).foldl keep [] ++ [p.2]
              ++ (post.map Prod.snd).filter (· ≠ [dot]) := by
          have hpostne : ∀ q ∈ post, q.2 ≠ [] := fun q hq => (names_ok q (hnames ▸
            List.mem_append_right pre (List.mem_cons_of_mem p hq))).1
          have hkeep : ∀ K, (post.map Prod.snd).foldl keep K
              = K ++ (post.map Prod.snd).filter (· ≠ [dot]) := fun K =>
            (foldl_keepBy hpostne fun q hq h2 => absurd h2 (hpost q hq)).symm.trans
              (htail (fun _ => true) K)
          rw [hnames, List.map_append, List.foldl_append, List.map_cons, List.foldl_cons, keep,
            if_neg (not_or.mpr ⟨hpne, hdot⟩), if_neg hparent, hkeep]
        rw [hkept, hcanon] at heq
        have hlen := congrArg List.length heq
        simp only [List.length_append, List.length_dropLast, List.length_singleton] at hlen
        omega

/-- **The paths that are normalized whatever the copies hold**: those without a component of two
    characters, and those whose result is too long where the copy does not show its only "..". -/
theorem vfsPathNormalize_exact (h : Rooted path) : (∀ left, Normalizes path left) ↔
    (∀ c ∈ path.bytes.splitOn slash, c.length ≠ 2) ∨ LastRoom path.bytes := by
  constructor
  · intro hall
    by_cases htwo : ∃ p ∈ names slash 0 path.bytes, p.2.length = 2
    · right
      obtain ⟨pre, p, post, hnames, hp, hpost⟩ := exists_last htwo
      refine Classical.byContradiction fun hlast => ?_
      obtain ⟨left, hleft⟩ := wrong_on_last h hnames hp hpost hlast
      exact hleft (hall left)
    · left
      intro c hc h2
      have hne : c ≠ [] := fun he => by rw [he] at h2; cases h2
      obtain ⟨p, hp, rfl⟩ := List.mem_map.mp ((mem_names hne).mp hc)
      exact htwo ⟨p, hp, h2⟩
  · rintro (htwo | ⟨hmax, hslash, hnodot, honly⟩) left
    · refine normalizes_of_truth h fun p hp h2 => absurd h2 (htwo p.2 ?_)
      exact (mem_names (names_ok p hp).1).mpr (List.mem_map_of_mem hp)
    · rw [twos_names] at honly
      have hparent : ∀ p ∈ names slash 0 path.bytes, p.2.length = 2 → p.2 = [dot, dot] := by
        intro p hp h2
        have hin : p.2 ∈ ((names slash 0 path.bytes).map Prod.snd).filter (·.length = 2) :=
          List.mem_filter.mpr ⟨List.mem_map_of_mem hp, by simpa using h2⟩
        rw [honly] at hin
        exact List.mem_singleton.mp hin
      by_cases hv : ∀ p ∈ names slash 0 path.bytes, p.2.length = 2 → leftParent left p.1 = true
      · exact normalizes_of_truth h fun p hp h2 => ⟨fun _ => hparent p hp h2, fun _ => hv p hp h2⟩
      · -- the only ".." is hidden
        have hone : ∃ a, (names slash 0 path.bytes).filter (fun p => p.2.length = 2) = [a] := by
          rw [List.filter_map] at honly
          have hl := congrArg List.length honly
          rw [List.length_map] at hl
          exact List.length_eq_one_iff.mp hl
        obtain ⟨a, ha⟩ := hone
        have heq : ∀ p ∈ names slash 0 path.bytes, p.2.length = 2 → p = a := by
          intro p hp h2
          have hin : p ∈ (names slash 0 path.bytes).filter (fun p => p.2.length = 2) :=
            List.mem_filter.mpr ⟨hp, by simpa using h2⟩
          rw [ha] at hin
          exact List.mem_singleton.mp hin
        have hnone := (walkTokens_start_none h (leftParent left)).mpr ⟨hmax, hslash, ?_⟩
        · exact (normalizes_iff h).mpr fun k hk => by
            rw [hnone] at hk
            cases hk
        · intro p hp
          refine ⟨fun hd => hnodot ((mem_names (List.cons_ne_nil _ _)).mpr
            (hd ▸ List.mem_map_of_mem hp)), ?_⟩
          rintro ⟨h2, hvp⟩
          refine hv fun q hq hq2 => ?_
          rw [heq q hq hq2, ← heq p hp h2]
          exact hvp

end Exact

/-- A path from its characters. -/
def pathOf (chars : List U8) : VfsPath :=
  { length := BitVec.ofNat 64 chars.length, data := fun i => chars.getD i.val 0 }

/-- "//usr/./a/" is "/usr/a", whatever the copies hold. -/
theorem vfsPathNormalize_exact_dot :
    canonical (pathOf [slash, slash, 0x75, 0x73, 0x72, slash, dot, slash, 0x61, slash]).bytes =
      [slash, 0x75, 0x73, 0x72, slash, 0x61] ∧
    Normalizes (pathOf [slash, slash, 0x75, 0x73, 0x72, slash, dot, slash, 0x61, slash])
      fun _ _ => 0xff :=
  ⟨by decide, (vfsPathNormalize_exact ⟨by decide, by decide, rfl⟩).mpr (Or.inl (by decide)) _⟩

/-- "/a/..", where the place of the copy was cleared: the result is "/a/..", not "/". -/
theorem vfsPathNormalize_hides : Rooted (pathOf [slash, 0x61, slash, dot, dot]) ∧
    ¬ Normalizes (pathOf [slash, 0x61, slash, dot, dot]) (fun _ _ => 0) := by
  have hroot : Rooted (pathOf [slash, 0x61, slash, dot, dot]) := ⟨by decide, by decide, rfl⟩
  refine ⟨hroot, fun hn => ?_⟩
  have heq := (normalizes_iff hroot).mp hn ⟨[[0x61], [dot, dot]], false⟩ rfl
  exact absurd heq (by decide)

end Slightx
