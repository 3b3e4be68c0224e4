/-
  File:      Slightx/Mem/Liballoc.lean
  Subject:   The allocator under the kernel's heap: boundary tags in byte memory.

  Source: vendor/liballoc/src/liballoc.c, vendor/liballoc/include/liballoc.h.

  A tag stands before every block, in the memory the blocks are cut from, and is read and written
  there. `int` indices are words of 32 bits, an index outside of the two tables does not occur
  (`binOf_bounds`). `liballoc_lock` and `liballoc_unlock` stand around each function, so a call is
  one step here. The pages come from a `PageSource`: `liballoc_alloc` and `liballoc_free`.

  * `getexp_bounds` -- the power of two below a size
  * `LibState.tag_modTag` -- tags that do not overlap
  * `removeTag_shelves`, `insertTag_shelves` -- the free lists after a tag was taken off, or put on
  * `joinTags_tiles`, `cutTag_tiles` -- the blocks after two became one, and after one became two
-/
import Slightx.Klibc.Bytes
import Slightx.Lib.Shelves
import Slightx.Lib.Tiling

namespace Slightx

open Lib Function

/-! ## 1. Tags -/

/-- `struct boundary_tag`; `index` is an `int`. -/
structure BoundaryTag where
  magic : U32
  size : U32
  realSize : U32
  index : U32
  splitLeft : Uptr
  splitRight : Uptr
  next : Uptr
  prev : Uptr
  deriving DecidableEq, Repr

def SIZEOF_BOUNDARY_TAG : Usize := 48

/-- `_Alignof(struct boundary_tag)` -/
def ALIGNOF_BOUNDARY_TAG : Usize := 8

def LIBALLOC_MAGIC : U32 := 0xC001C0DE

def MAXCOMPLETE : Int := 5

def MAXEXP : Nat := 32

def MINEXP : Nat := 8

/-- `l_pageSize` -/
def LIBALLOC_PAGE_SIZE : U32 := 4096

/-- `l_pageCount` -/
def LIBALLOC_PAGE_COUNT : U32 := 16

def readTag (m : Mem) (a : Uptr) : BoundaryTag where
  magic := (load64 m a.toNat).extractLsb' 0 32
  size := (load64 m a.toNat).extractLsb' 32 32
  realSize := (load64 m (a.toNat + 8)).extractLsb' 0 32
  index := (load64 m (a.toNat + 8)).extractLsb' 32 32
  splitLeft := load64 m (a.toNat + 16)
  splitRight := load64 m (a.toNat + 24)
  next := load64 m (a.toNat + 32)
  prev := load64 m (a.toNat + 40)

def writeTag (m : Mem) (a : Uptr) (t : BoundaryTag) : Mem :=
  store64 (store64 (store64 (store64 (store64 (store64 m a.toNat (t.size ++ t.magic))
    (a.toNat + 8) (t.index ++ t.realSize)) (a.toNat + 16) t.splitLeft) (a.toNat + 24) t.splitRight)
    (a.toNat + 32) t.next) (a.toNat + 40) t.prev

/-- `getexp`; `1 << 31` is compared as an `unsigned int`. -/
def getexp (size : U32) : Int :=
  if size.toNat < 2 ^ MINEXP then -1
  else
    let shift := ((List.range' MINEXP (MAXEXP - MINEXP)).find? fun shift =>
      size.toNat < 2 ^ shift).getD MAXEXP
    (shift : Int) - 1

/-- `index = getexp(size); if (index < MINEXP) index = MINEXP;` -/
def binOf (size : U32) : Nat := if getexp size < MINEXP then MINEXP else (getexp size).toNat

/-- The pages for `bytes` bytes, at least `l_pageCount`. -/
def pagesFor (bytes : U32) : U32 :=
  let pages := bytes / LIBALLOC_PAGE_SIZE
  let pages := if bytes % LIBALLOC_PAGE_SIZE ≠ 0 then pages + 1 else pages
  if pages < LIBALLOC_PAGE_COUNT then LIBALLOC_PAGE_COUNT else pages

/-! ## 2. The allocator -/

/-- The statics of liballoc.c, and what `liballoc_alloc` and `liballoc_free` keep. -/
structure LibStatics (ω : Type) where
  /-- `l_freePages` -/
  freePages : Nat → Uptr
  /-- `l_completePages` -/
  completePages : Nat → Int
  /-- `l_initialized` -/
  initialized : Bool
  pages : ω

structure LibState (ω : Type) extends LibStatics ω where
  mem : Mem

/-- `liballoc_alloc` and `liballoc_free`. -/
structure PageSource (ω : Type) where
  alloc : Int → Prog Fault (Mem × ω) Uptr
  free : Uptr → Int → Prog Fault (Mem × ω) Int

/-- A bound of the passes of a loop over tags, which have different addresses. -/
def TAGS : Nat := 2 ^ 64

namespace LibState

variable {ω : Type}

def tag (s : LibState ω) (a : Uptr) : BoundaryTag := readTag s.mem a

def modTag (s : LibState ω) (a : Uptr) (f : BoundaryTag → BoundaryTag) : LibState ω :=
  { s with mem := writeTag s.mem a (f (s.tag a)) }

/-- `if (a != NULL) a->field = …` -/
def modLink (s : LibState ω) (a : Uptr) (f : BoundaryTag → BoundaryTag) : LibState ω :=
  if a ≠ 0 then s.modTag a f else s

def setFree (s : LibState ω) (i : Nat) (a : Uptr) : LibState ω :=
  { s with freePages := update s.freePages i a }

def addComplete (s : LibState ω) (i : Nat) (n : Int) : LibState ω :=
  { s with completePages := update s.completePages i (s.completePages i + n) }

/-- A negative index is left to the size. -/
def realIndex (s : LibState ω) (tag : Uptr) (index : Int) : Nat :=
  if index < 0 then binOf ((s.tag tag).realSize - SIZEOF_BOUNDARY_TAG.setWidth 32)
  else index.toNat

def insertTag (s : LibState ω) (tag : Uptr) (index : Int) : LibState ω :=
  let realIndex := s.realIndex tag index
  let s := s.modTag tag fun t => { t with index := BitVec.ofNat 32 realIndex }
  let s := if s.freePages realIndex ≠ 0 then
      (s.modTag (s.freePages realIndex) fun t => { t with prev := tag }).modTag tag
        fun t => { t with next := s.freePages realIndex }
    else s
  s.setFree realIndex tag

def removeTag (s : LibState ω) (tag : Uptr) : LibState ω :=
  let s := if s.freePages (s.tag tag).index.toNat = tag then
      s.setFree (s.tag tag).index.toNat (s.tag tag).next else s
  let s := s.modLink (s.tag tag).prev fun t => { t with next := (s.tag tag).next }
  let s := s.modLink (s.tag tag).next fun t => { t with prev := (s.tag tag).prev }
  s.modTag tag fun t => { t with next := 0, prev := 0, index := -1 }

/-- The tag that is left, and the state. -/
def meltLeft (s : LibState ω) (tag : Uptr) : Uptr × LibState ω :=
  let left := (s.tag tag).splitLeft
  let s := s.modTag left fun t => { t with realSize := t.realSize + (s.tag tag).realSize }
  let s := s.modTag left fun t => { t with splitRight := (s.tag tag).splitRight }
  let s := s.modLink (s.tag tag).splitRight fun t => { t with splitLeft := left }
  (left, s)

def absorbRight (s : LibState ω) (tag : Uptr) : LibState ω :=
  let right := (s.tag tag).splitRight
  let s := s.removeTag right
  let s := s.modTag tag fun t => { t with realSize := t.realSize + (s.tag right).realSize }
  let s := s.modTag tag fun t => { t with splitRight := (s.tag right).splitRight }
  s.modLink (s.tag right).splitRight fun t => { t with splitLeft := tag }

/-- `split_tag` up to its last call: `newTag` takes what `tag` does not need. -/
def cutTag (s : LibState ω) (tag newTag : Uptr) : LibState ω :=
  let t := s.tag tag
  let remainder : U32 := t.realSize - SIZEOF_BOUNDARY_TAG.setWidth 32 - t.size
  let s := s.modTag newTag fun u => { u with
    magic := LIBALLOC_MAGIC, realSize := remainder, next := 0, prev := 0, splitLeft := tag,
    splitRight := t.splitRight }
  let s := s.modLink (s.tag newTag).splitRight fun u => { u with splitLeft := newTag }
  let s := s.modTag tag fun u => { u with splitRight := newTag }
  s.modTag tag fun u => { u with realSize := u.realSize - (s.tag newTag).realSize }

def splitTag (s : LibState ω) (tag : Uptr) : LibState ω :=
  let newTag := tag + SIZEOF_BOUNDARY_TAG + (s.tag tag).size.setWidth 64
  (s.cutTag tag newTag).insertTag newTag (-1)

/-- The loop of `malloc`: the first tag from `tag` on with room for `size` bytes and a tag more,
    the null pointer if there is none. -/
def findTag (s : LibState ω) (size : Usize) : Nat → Uptr → Uptr
  | 0, _ => 0
  | passes + 1, tag =>
      if tag = 0 then 0
      else if size + SIZEOF_BOUNDARY_TAG ≤ (s.tag tag).realSize.setWidth 64 - SIZEOF_BOUNDARY_TAG
      then tag
      else findTag s size passes (s.tag tag).next

/-- The first loop of `free`. -/
def meltLefts : Nat → Uptr → LibState ω → Uptr × LibState ω
  | 0, tag, s => (tag, s)
  | passes + 1, tag, s =>
      let left := (s.tag tag).splitLeft
      if left ≠ 0 ∧ 0 ≤ (s.tag left).index.toInt then
        let (tag, s) := s.meltLeft tag
        meltLefts passes tag (s.removeTag tag)
      else (tag, s)

/-- The second loop of `free`. -/
def absorbRights : Nat → Uptr → LibState ω → LibState ω
  | 0, _, s => s
  | passes + 1, tag, s =>
      let right := (s.tag tag).splitRight
      if right ≠ 0 ∧ 0 ≤ (s.tag right).index.toInt then
        absorbRights passes tag (s.absorbRight tag)
      else s

/-- The tables as the first call of `malloc` leaves them. -/
def init (s : LibState ω) : LibState ω :=
  if s.initialized then s
  else { s with
    freePages := fun i => if i < MAXEXP then 0 else s.freePages i
    completePages := fun i => if i < MAXEXP then 0 else s.completePages i
    initialized := true }

/-- A tag is taken from the free list `index`. -/
def takeTag (s : LibState ω) (index : Nat) (tag : Uptr) : LibState ω :=
  let s := s.removeTag tag
  if (s.tag tag).splitLeft = 0 ∧ (s.tag tag).splitRight = 0 then s.addComplete index (-1) else s

/-- The excess space of a tag for `size` bytes becomes a tag of its own. -/
def trimTag (s : LibState ω) (tag : Uptr) (size : Usize) : LibState ω :=
  let s := s.modTag tag fun t => { t with size := size.setWidth 32 }
  let remainder : U32 :=
    ((s.tag tag).realSize.setWidth 64 - size - SIZEOF_BOUNDARY_TAG * 2).setWidth 32
  if 0 < remainder.toInt ∧ 0 ≤ getexp remainder then s.splitTag tag else s

end LibState

section Calls

variable {ω : Type} (src : PageSource ω)

def onSource {α : Type} (x : Prog Fault (Mem × ω) α) : Prog Fault (LibState ω) α :=
  zoom (fun s => (s.mem, s.pages)) (fun s t => { s with mem := t.1, pages := t.2 }) x

/-- The null pointer where there are no pages. -/
def allocateNewTag (size : U32) : Prog Fault (LibState ω) Uptr := do
  let usage := size + SIZEOF_BOUNDARY_TAG.setWidth 32
  let pages := pagesFor usage
  let tag ← onSource (src.alloc pages.toInt)
  if tag = 0 then return 0
  else do
    modify fun s => s.modTag tag fun _ =>
      { magic := LIBALLOC_MAGIC, size, realSize := pages * LIBALLOC_PAGE_SIZE, index := -1,
        splitLeft := 0, splitRight := 0, next := 0, prev := 0 }
    return tag

/-- `malloc`. -/
def libMalloc (size : Usize) : Prog Fault (LibState ω) Uptr := do
  let size := (size + ALIGNOF_BOUNDARY_TAG - 1) &&& ~~~(ALIGNOF_BOUNDARY_TAG - 1)
  modify LibState.init
  let index := binOf (size.setWidth 32)
  let s ← get
  let found := s.findTag size TAGS (s.freePages index)
  let tag ← (if found = 0 then allocateNewTag src (size.setWidth 32)
    else do
      modify fun s => s.takeTag index found
      return found)
  if tag = 0 then return 0
  else do
    modify fun s => s.trimTag tag size
    return tag + SIZEOF_BOUNDARY_TAG

/-- `free`. -/
def libFree (ptr : Uptr) : Prog Fault (LibState ω) Unit := do
  if ptr = 0 then return ()
  else do
    let s ← get
    let tag := ptr - SIZEOF_BOUNDARY_TAG
    if (s.tag tag).magic ≠ LIBALLOC_MAGIC then return ()
    else do
      let (tag, s) := LibState.meltLefts TAGS tag s
      let s := LibState.absorbRights TAGS tag s
      let t := s.tag tag
      let index := binOf (t.realSize - SIZEOF_BOUNDARY_TAG.setWidth 32)
      if t.splitLeft = 0 ∧ t.splitRight = 0 then
        if s.completePages index = MAXCOMPLETE then do
          set s
          let _ ← onSource (src.free tag (pagesFor t.realSize).toInt)
          return ()
        else set ((s.addComplete index 1).insertTag tag index)
      else set (s.insertTag tag index)

def liballocMemset (p : Uptr) (c : Byte) (n : Usize) : Prog Fault Mem Uptr := do
  -- the first write is to `p`
  if p = 0 ∧ n ≠ 0 then throw (.pageFault 0)
  else do
    forUp n.toNat fun i => modify fun m => setByte m (p.toNat + i) c
    return p

/-- Words of four bytes, then the bytes that are left. -/
def liballocMemcpy (dst p : Uptr) (n : Usize) : Prog Fault Mem Uptr := do
  if dst = 0 ∧ n ≠ 0 then throw (.pageFault 0)
  else do
    let words := n.toNat / 4
    forUp words fun i => modify fun m => moved m (dst.toNat + 4 * i) (p.toNat + 4 * i) 4
    forUp (n.toNat % 4) fun i => modify fun m =>
      setByte m (dst.toNat + 4 * words + i) (m (p.toNat + 4 * words + i))
    return dst

def onLibMem {α : Type} (x : Prog Fault Mem α) : Prog Fault (LibState ω) α :=
  zoom LibState.mem (fun s mem => { s with mem }) x

/-- `calloc`; `real_size` is an `int`. -/
def libCalloc (nobj size : Usize) : Prog Fault (LibState ω) Uptr := do
  let realSize : U32 := (nobj * size).setWidth 32
  let p ← libMalloc src (realSize.signExtend 64)
  let _ ← onLibMem (liballocMemset p 0 (realSize.signExtend 64))
  return p

/-- `realloc`; `real_size` is an `int`. -/
def libRealloc (p : Uptr) (size : Usize) : Prog Fault (LibState ω) Uptr := do
  if size = 0 then
    libFree src p
    return 0
  else if p = 0 then libMalloc src size
  else do
    let s ← get
    let realSize : U32 := (s.tag (p - SIZEOF_BOUNDARY_TAG)).size
    let realSize := if size < realSize.signExtend 64 then size.setWidth 32 else realSize
    let ptr ← libMalloc src size
    let _ ← onLibMem (liballocMemcpy ptr p (realSize.signExtend 64))
    libFree src p
    return ptr

end Calls

/-! ## 3. Sizes -/

section Sizes

variable {size : U32}

/-- **`2^n ≤ size < 2^(n+1)`**, for sizes that are not below the quantum. -/
theorem getexp_bounds (h : 2 ^ MINEXP ≤ size.toNat) : ∃ n : Nat, getexp size = n ∧ MINEXP ≤ n ∧
    n < MAXEXP ∧ 2 ^ n ≤ size.toNat ∧ size.toNat < 2 ^ (n + 1) := by
  have hlt := size.isLt
  unfold getexp
  rw [if_neg (Nat.not_lt.mpr h)]
  cases hf : (List.range' MINEXP (MAXEXP - MINEXP)).find? fun shift =>
      decide (size.toNat < 2 ^ shift) with
  | none =>
      have hall := List.find?_eq_none.mp hf 31 (by decide)
      rw [decide_eq_true_eq, Nat.not_lt] at hall
      exact ⟨31, rfl, by decide, by decide, hall, hlt⟩
  | some shift =>
      obtain ⟨hp, l₁, l₂, hl, hbefore⟩ := List.find?_eq_some_iff_append.mp hf
      rw [decide_eq_true_eq] at hp
      have hmem : shift ∈ List.range' MINEXP (MAXEXP - MINEXP) := by
        rw [hl]
        exact List.mem_append_right _ List.mem_cons_self
      obtain ⟨hlow, hhigh⟩ := List.mem_range'_1.mp hmem
      have hne : shift ≠ MINEXP := by
        rintro rfl
        exact absurd hp (Nat.not_lt.mpr h)
      have hmin : MINEXP = 8 := rfl
      have hmax : MAXEXP = 32 := rfl
      -- the shift before this one was tried, too
      have hprev : shift - 1 ∈ l₁ := by
        have hin : shift - 1 ∈ List.range' MINEXP (MAXEXP - MINEXP) :=
          List.mem_range'_1.mpr ⟨by omega, by omega⟩
        have hsorted : (List.range' MINEXP (MAXEXP - MINEXP)).Pairwise (· < ·) :=
          List.pairwise_lt_range'
        rw [hl] at hin hsorted
        rcases List.mem_append.mp hin with hin | hin
        · exact hin
        · rcases List.mem_cons.mp hin with he | hin
          · omega
          · have := (List.pairwise_cons.mp (List.pairwise_append.mp hsorted).2.1).1 _ hin
            omega
      have hnot := hbefore _ hprev
      rw [Bool.not_eq_true', decide_eq_false_iff_not, Nat.not_lt] at hnot
      refine ⟨shift - 1, ?_, by omega, by omega, hnot, ?_⟩
      · show (shift : Int) - 1 = ((shift - 1 : Nat) : Int)
        omega
      · rw [show shift - 1 + 1 = shift by omega]
        exact hp

theorem getexp_small (h : size.toNat < 2 ^ MINEXP) : getexp size = -1 := if_pos h

/-- The free list for a size. -/
theorem binOf_bounds (size : U32) : MINEXP ≤ binOf size ∧ binOf size < MAXEXP ∧
    size.toNat < 2 ^ (binOf size + 1) ∧
      (2 ^ MINEXP ≤ size.toNat → 2 ^ binOf size ≤ size.toNat) := by
  by_cases h : size.toNat < 2 ^ MINEXP
  · have hbin : binOf size = MINEXP := by
      unfold binOf
      rw [getexp_small h]
      rfl
    rw [hbin]
    refine ⟨Nat.le_refl _, by decide, Nat.lt_trans h (by decide), fun hn => ?_⟩
    omega
  · obtain ⟨n, hn, hlow, hhigh, hle, hlt⟩ := getexp_bounds (Nat.not_lt.mp h)
    have hbin : binOf size = n := by
      unfold binOf
      rw [hn, if_neg (by omega)]
      rfl
    rw [hbin]
    exact ⟨hlow, hhigh, hlt, fun _ => hle⟩

end Sizes

/-! ## 4. Tags in memory -/

section Memory

variable {m m' : Mem} {a : Uptr} {t : BoundaryTag}

theorem extract_low {w : U64} {x y : U32} (h : w = x ++ y) : w.extractLsb' 0 32 = y := by
  rw [h]
  apply BitVec.eq_of_getLsbD_eq
  intro i hi
  rw [BitVec.getLsbD_extractLsb', BitVec.getLsbD_append]
  simp [hi]

theorem extract_high {w : U64} {x y : U32} (h : w = x ++ y) : w.extractLsb' 32 32 = x := by
  rw [h]
  apply BitVec.eq_of_getLsbD_eq
  intro i hi
  rw [BitVec.getLsbD_extractLsb', BitVec.getLsbD_append]
  simp [hi]

@[simp] theorem readTag_writeTag (m : Mem) (a : Uptr) (t : BoundaryTag) :
    readTag (writeTag m a t) a = t := by
  have h0 : load64 (writeTag m a t) a.toNat = t.size ++ t.magic := by
    unfold writeTag
    rw [load64_store64_ne _ _ (by omega), load64_store64_ne _ _ (by omega),
      load64_store64_ne _ _ (by omega), load64_store64_ne _ _ (by omega),
      load64_store64_ne _ _ (by omega), load64_store64_same]
  have h8 : load64 (writeTag m a t) (a.toNat + 8) = t.index ++ t.realSize := by
    unfold writeTag
    rw [load64_store64_ne _ _ (by omega), load64_store64_ne _ _ (by omega),
      load64_store64_ne _ _ (by omega), load64_store64_ne _ _ (by omega), load64_store64_same]
  have h16 : load64 (writeTag m a t) (a.toNat + 16) = t.splitLeft := by
    unfold writeTag
    rw [load64_store64_ne _ _ (by omega), load64_store64_ne _ _ (by omega),
      load64_store64_ne _ _ (by omega), load64_store64_same]
  have h24 : load64 (writeTag m a t) (a.toNat + 24) = t.splitRight := by
    unfold writeTag
    rw [load64_store64_ne _ _ (by omega), load64_store64_ne _ _ (by omega), load64_store64_same]
  have h32 : load64 (writeTag m a t) (a.toNat + 32) = t.next := by
    unfold writeTag
    rw [load64_store64_ne _ _ (by omega), load64_store64_same]
  have h40 : load64 (writeTag m a t) (a.toNat + 40) = t.prev := load64_store64_same ..
  unfold readTag
  rw [extract_low h0, extract_high h0, extract_low h8, extract_high h8, h16, h24, h32, h40]

theorem writeTag_out {x : Nat} (h : ¬ (a.toNat ≤ x ∧ x < a.toNat + 48)) :
    writeTag m a t x = m x := by
  unfold writeTag store64
  rw [if_neg (by omega), if_neg (by omega), if_neg (by omega), if_neg (by omega),
    if_neg (by omega), if_neg (by omega)]

/-- A tag is 48 bytes. -/
theorem readTag_congr (h : ∀ k, k < 48 → m' (a.toNat + k) = m (a.toNat + k)) :
    readTag m' a = readTag m a := by
  have hword : ∀ o, o + 8 ≤ 48 → load64 m' (a.toNat + o) = load64 m (a.toNat + o) := by
    intro o ho
    refine load64_congr fun k hk => ?_
    rw [Nat.add_assoc]
    exact h (o + k) (by omega)
  have hfirst : load64 m' a.toNat = load64 m a.toNat := hword 0 (by decide)
  unfold readTag
  rw [hfirst, hword 8 (by decide), hword 16 (by decide), hword 24 (by decide),
    hword 32 (by decide), hword 40 (by decide)]

end Memory

/-- **Tags that do not overlap**, at the addresses `D`. -/
structure Headers (D : Uptr → Prop) : Prop where
  nonzero : ∀ a, D a → a ≠ 0
  clear : ∀ a b, D a → D b → a ≠ b → Clear a.toNat 48 b.toNat 48

/-- A pointer as a link. -/
def linkOf (p : Uptr) : Option Uptr := if p = 0 then none else some p

/-- An index as the number of a free list. -/
def shelfOf (index : U32) : Option Nat := if 0 ≤ index.toInt then some index.toNat else none

theorem linkOf_none {p : Uptr} : linkOf p = none ↔ p = 0 := by
  unfold linkOf
  split
  · rename_i h
    exact ⟨fun _ => h, fun _ => rfl⟩
  · rename_i h
    exact ⟨nofun, fun hp => absurd hp h⟩

theorem linkOf_some {p a : Uptr} : linkOf p = some a ↔ p = a ∧ a ≠ 0 := by
  unfold linkOf
  split
  · rename_i h
    exact ⟨nofun, fun hp => absurd (hp.1.symm.trans h) hp.2⟩
  · rename_i h
    exact ⟨fun hp => Option.some.inj hp ▸ ⟨rfl, h⟩, fun hp => congrArg some hp.1⟩

theorem linkOf_self {a : Uptr} (ha : a ≠ 0) : linkOf a = some a := if_neg ha

theorem shelfOf_taken : shelfOf (-1) = none := by decide

theorem shelfOf_ofNat {i : Nat} (hi : i < 2 ^ 31) : shelfOf (BitVec.ofNat 32 i) = some i := by
  have hnat : (BitVec.ofNat 32 i).toNat = i := by
    rw [BitVec.toNat_ofNat, Nat.mod_eq_of_lt (by omega)]
  unfold shelfOf
  rw [BitVec.toInt_eq_toNat_cond, hnat, if_pos (by omega)]

theorem shelfOf_some {index : U32} {i : Nat} (h : shelfOf index = some i) : index.toNat = i := by
  unfold shelfOf at h
  split at h
  · exact Option.some.inj h
  · cases h

theorem shelfOf_ne_none {index : U32} : shelfOf index ≠ none ↔ 0 ≤ index.toInt := by
  unfold shelfOf
  split
  · rename_i h
    exact ⟨fun _ => h, fun _ => Option.some_ne_none _⟩
  · rename_i h
    exact ⟨fun hn => absurd rfl hn, fun hi => absurd hi h⟩

/-- The byte at `x` is in one of these tags. -/
def InHeaders (D : Uptr → Prop) (x : Nat) : Prop := ∃ a, D a ∧ a.toNat ≤ x ∧ x < a.toNat + 48

/-- `a` is the tag of a block. -/
def IsBlock (area : Uptr → Option Extent) (a : Uptr) : Prop := area a ≠ none

theorem isBlock_some {area : Uptr → Option Extent} {a : Uptr} {A : Extent}
    (ha : area a = some A) : IsBlock area a := by
  unfold IsBlock
  rw [ha]
  exact Option.some_ne_none A

namespace LibState

section Tags

variable {ω : Type} {s s' : LibState ω} {D : Uptr → Prop} {a b : Uptr}
  {f : BoundaryTag → BoundaryTag}

/-- The free lists. -/
def shelves (s : LibState ω) : Shelves Uptr where
  node a := ⟨linkOf (s.tag a).prev, linkOf (s.tag a).next⟩
  head i := linkOf (s.freePages i)
  shelf a := shelfOf (s.tag a).index

/-- The blocks, each in its area. -/
def tiles (s : LibState ω) (area : Uptr → Option Extent) : Tiles Uptr where
  area := area
  size a := (s.tag a).realSize.toNat
  sides a := ⟨linkOf (s.tag a).splitLeft, linkOf (s.tag a).splitRight⟩

theorem tag_congr (hm : s'.mem = s.mem) : s'.tag b = s.tag b := by
  unfold tag
  rw [hm]

theorem tag_modTag (hD : Headers D) (ha : D a) (hb : D b) :
    (s.modTag a f).tag b = if b = a then f (s.tag a) else s.tag b := by
  split
  · rename_i hba
    rw [hba]
    exact readTag_writeTag ..
  · rename_i hba
    have hclear := hD.clear b a hb ha hba
    unfold Clear at hclear
    exact readTag_congr fun k hk => writeTag_out (by omega)

theorem tag_modLink (hD : Headers D) (ha : a = 0 ∨ D a) (hb : D b) :
    (s.modLink a f).tag b = if b = a then f (s.tag a) else s.tag b := by
  unfold modLink
  split
  · rename_i hne
    exact tag_modTag hD (ha.resolve_left hne) hb
  · rename_i hnull
    rw [Classical.not_not] at hnull
    rw [if_neg fun hba => hD.nonzero b hb (hba.trans hnull)]

theorem sameOff_modTag (ha : D a) : SameOff (InHeaders D) s.mem (s.modTag a f).mem :=
  fun _ hx => writeTag_out fun hin => hx ⟨a, ha, hin⟩

theorem sameOff_modLink (ha : a = 0 ∨ D a) :
    SameOff (InHeaders D) s.mem (s.modLink a f).mem := by
  unfold modLink
  split
  · rename_i hne
    exact sameOff_modTag (ha.resolve_left hne)
  · exact sameOff_refl _ _

@[simp] theorem tag_setFree (i : Nat) (p : Uptr) : (s.setFree i p).tag b = s.tag b := rfl

@[simp] theorem modTag_statics : (s.modTag a f).toLibStatics = s.toLibStatics := rfl

@[simp] theorem modLink_statics : (s.modLink a f).toLibStatics = s.toLibStatics := by
  unfold modLink
  split
  · rfl
  · rfl

/-! ## 5. The free lists -/

/-- What stands beside a tag that is taken off its list. -/
structure Removable (D : Uptr → Prop) (s : LibState ω) (a : Uptr) : Prop where
  mem : D a
  prev : (s.tag a).prev = 0 ∨ D (s.tag a).prev
  next : (s.tag a).next = 0 ∨ D (s.tag a).next
  prev_ne : a ≠ (s.tag a).prev
  next_ne : a ≠ (s.tag a).next

theorem removeTag_tag (hD : Headers D) (h : Removable D s a) (hb : D b) :
    (s.removeTag a).tag b =
      if b = a then { s.tag a with next := 0, prev := 0, index := -1 }
      else { s.tag b with
        next := if b = (s.tag a).prev then (s.tag a).next else (s.tag b).next
        prev := if b = (s.tag a).next then (s.tag a).prev else (s.tag b).prev } := by
  have hfree : ∀ c : Uptr, (if s.freePages (s.tag a).index.toNat = a then
      s.setFree (s.tag a).index.toNat (s.tag a).next else s).tag c = s.tag c := by
    intro c
    split
    · rfl
    · rfl
  unfold removeTag
  dsimp only
  generalize hs₁ : (if s.freePages (s.tag a).index.toNat = a then
      s.setFree (s.tag a).index.toNat (s.tag a).next else s) = s₁ at hfree ⊢
  have hprev : (s₁.tag a).prev = (s.tag a).prev := by rw [hfree]
  -- the tag before `a`
  generalize hs₂ : (s₁.modLink (s₁.tag a).prev fun t => { t with next := (s₁.tag a).next }) = s₂
  have h₂ : ∀ c, D c → s₂.tag c = if c = (s.tag a).prev then
      { s.tag c with next := (s.tag a).next } else s.tag c := by
    intro c hc
    rw [← hs₂, tag_modLink hD (hprev ▸ h.prev) hc, hfree, hfree, hfree]
    split
    · rename_i hca
      rw [hca]
    · rfl
  have ha₂ : s₂.tag a = s.tag a := by rw [h₂ a h.mem, if_neg h.prev_ne]
  rw [ha₂]
  -- the tag behind it
  generalize hs₃ : (s₂.modLink (s.tag a).next fun t => { t with prev := (s.tag a).prev }) = s₃
  have h₃ : ∀ c, D c → s₃.tag c = if c = (s.tag a).next then
      { s₂.tag c with prev := (s.tag a).prev } else s₂.tag c := by
    intro c hc
    rw [← hs₃, tag_modLink hD h.next hc]
    split
    · rename_i hca
      rw [hca]
    · rfl
  have ha₃ : s₃.tag a = s.tag a := by rw [h₃ a h.mem, if_neg h.next_ne, ha₂]
  rw [tag_modTag hD h.mem hb, ha₃]
  split
  · rfl
  · rw [h₃ b hb, h₂ b hb]
    split
    · split
      · rfl
      · rfl
    · split
      · rfl
      · rfl

theorem removeTag_statics : (s.removeTag a).toLibStatics =
    (if s.freePages (s.tag a).index.toNat = a then
      s.setFree (s.tag a).index.toNat (s.tag a).next else s).toLibStatics := by
  unfold removeTag
  simp only [modTag_statics, modLink_statics]

theorem removeTag_sameOff (hD : Headers D) (h : Removable D s a) :
    SameOff (InHeaders D) s.mem (s.removeTag a).mem := by
  unfold removeTag
  dsimp only
  generalize hs₁ : (if s.freePages (s.tag a).index.toNat = a then
      s.setFree (s.tag a).index.toNat (s.tag a).next else s) = s₁
  have hmem : s₁.mem = s.mem := by
    rw [← hs₁]
    split
    · rfl
    · rfl
  have htag : ∀ c : Uptr, s₁.tag c = s.tag c := fun c => tag_congr hmem
  rw [htag a]
  generalize hs₂ : (s₁.modLink (s.tag a).prev fun t => { t with next := (s.tag a).next }) = s₂
  have h₂ : SameOff (InHeaders D) s.mem s₂.mem := by
    rw [← hs₂, ← hmem]
    exact sameOff_modLink h.prev
  have ha₂ : (s₂.tag a).next = (s.tag a).next := by
    rw [← hs₂, tag_modLink hD h.prev h.mem, if_neg h.prev_ne, htag]
  refine sameOff_trans h₂ (sameOff_trans (sameOff_modLink ?_) (sameOff_modTag h.mem))
  rw [ha₂]
  exact h.next

theorem insertTag_tag {r : Nat} {i : Int} (hD : Headers D) (ha : D a) (hr : s.realIndex a i = r)
    (hh : s.freePages r = 0 ∨ D (s.freePages r)) (hne : s.freePages r ≠ a) (hb : D b) :
    (s.insertTag a i).tag b =
      if b = a then { s.tag a with
        index := BitVec.ofNat 32 r
        next := if s.freePages r = 0 then (s.tag a).next else s.freePages r }
      else if b = s.freePages r then { s.tag b with prev := a } else s.tag b := by
  unfold insertTag
  dsimp only
  rw [hr]
  generalize hs₁ : (s.modTag a fun t => { t with index := BitVec.ofNat 32 r }) = s₁
  have h₁ : ∀ c, D c → s₁.tag c =
      if c = a then { s.tag a with index := BitVec.ofNat 32 r } else s.tag c := by
    intro c hc
    rw [← hs₁, tag_modTag hD ha hc]
  have hfree : s₁.freePages r = s.freePages r := by rw [← hs₁]; rfl
  rw [tag_setFree, hfree]
  by_cases hnull : s.freePages r = 0
  · rw [if_neg (not_not_intro hnull), h₁ b hb, if_pos hnull]
    split
    · rfl
    · rw [if_neg fun hb0 => hD.nonzero b hb (hb0.trans hnull)]
  · have hhead := hh.resolve_left hnull
    rw [if_pos hnull, tag_modTag hD ha hb, tag_modTag hD hhead ha, tag_modTag hD hhead hb,
      if_neg hne.symm, h₁ a ha, if_pos rfl, if_neg hnull]
    split
    · rfl
    · rename_i hba
      split
      · rename_i hbh
        rw [h₁ _ hhead, if_neg hne, hbh]
      · rw [h₁ b hb, if_neg hba]

theorem insertTag_statics (i : Int) : (s.insertTag a i).toLibStatics =
    { s.toLibStatics with freePages := update s.freePages (s.realIndex a i) a } := by
  unfold insertTag
  dsimp only
  split
  · rfl
  · rfl

theorem mem_setFree (i : Nat) (p : Uptr) : (s.setFree i p).mem = s.mem := rfl

theorem insertTag_sameOff (i : Int) (ha : D a)
    (hh : s.freePages (s.realIndex a i) = 0 ∨ D (s.freePages (s.realIndex a i))) :
    SameOff (InHeaders D) s.mem (s.insertTag a i).mem := by
  unfold insertTag
  dsimp only
  rw [mem_setFree]
  generalize s.realIndex a i = r at hh ⊢
  have h₁ := sameOff_modTag (s := s) (f := fun t => { t with index := BitVec.ofNat 32 r }) ha
  have hfree : (s.modTag a fun t => { t with index := BitVec.ofNat 32 r }).freePages r =
      s.freePages r := rfl
  rw [hfree]
  generalize (s.modTag a fun t => { t with index := BitVec.ofNat 32 r }) = s₁ at h₁ ⊢
  split
  · rename_i hne
    have h₂ := sameOff_modTag (s := s₁) (f := fun t => { t with prev := a }) (hh.resolve_left hne)
    generalize (s₁.modTag (s.freePages r) fun t => { t with prev := a }) = s₂ at h₂ ⊢
    exact sameOff_trans h₁ (sameOff_trans h₂ (sameOff_modTag ha))
  · exact h₁

variable {lists : Nat → List Uptr} {i : Nat}

theorem removable (hD : Headers D) (h : Shelved s.shelves D lists) (ha : a ∈ lists i) :
    Removable D s a := by
  have hDa := ((h.member i a).mp ha).1
  have hprev : (s.tag a).prev ≠ 0 → (s.tag a).prev ∈ lists i ∧ (s.tag a).prev ≠ a :=
    fun hne => shelved_prev h ha (linkOf_self hne)
  have hnext : (s.tag a).next ≠ 0 → (s.tag a).next ∈ lists i ∧ (s.tag a).next ≠ a :=
    fun hne => shelved_next h ha (linkOf_self hne)
  refine ⟨hDa, ?_, ?_, fun he => ?_, fun he => ?_⟩
  · by_cases hne : (s.tag a).prev = 0
    · exact .inl hne
    · exact .inr ((h.member i _).mp (hprev hne).1).1
  · by_cases hne : (s.tag a).next = 0
    · exact .inl hne
    · exact .inr ((h.member i _).mp (hnext hne).1).1
  · exact (hprev (he ▸ hD.nonzero a hDa)).2 he.symm
  · exact (hnext (he ▸ hD.nonzero a hDa)).2 he.symm

/-- **The free lists without a tag.** -/
theorem removeTag_shelves (hD : Headers D) (h : Shelved s.shelves D lists) (ha : a ∈ lists i) :
    Shelved (s.removeTag a).shelves D (update lists i ((lists i).erase a)) := by
  have hrem := removable hD h ha
  have hindex : (s.tag a).index.toNat = i := shelfOf_some ((h.member i a).mp ha).2
  refine shelved_congr (shelved_taken h ha) ?_ (fun b hb => ?_) fun b hb => ?_
  · -- the head moves on if `a` is the head
    obtain ⟨l₁, l₂, hl⟩ := List.append_of_mem ha
    have hd := h.list i
    rw [hl] at hd
    have hfirst : s.freePages i = a ↔ linkOf (s.tag a).prev = none := by
      have hhead : linkOf (s.freePages i) = (l₁ ++ a :: l₂).head? := hd.head
      have hprev : linkOf (s.tag a).prev = l₁.getLast? := (dlist_at hd).1
      rw [hprev, List.getLast?_eq_none_iff]
      constructor
      · intro he
        rw [he, linkOf_self (hD.nonzero a hrem.mem)] at hhead
        cases l₁ with
        | nil => rfl
        | cons b k =>
            obtain rfl : a = b := Option.some.inj hhead
            exact absurd List.mem_cons_self (List.nodup_cons.mp (List.nodup_middle.mp hd.nodup)).1
      · rintro rfl
        exact (linkOf_some.mp hhead).1
    have hstat := congrArg LibStatics.freePages (removeTag_statics (s := s) (a := a))
    rw [hindex] at hstat
    funext j
    show linkOf ((s.removeTag a).freePages j) = update (fun i => linkOf (s.freePages i)) i
      (if linkOf (s.tag a).prev = none then linkOf (s.tag a).next else linkOf (s.freePages i)) j
    rw [hstat]
    by_cases hj : j = i
    · rw [hj, update_self]
      by_cases hh : s.freePages i = a
      · rw [if_pos hh, if_pos (hfirst.mp hh)]
        exact congrArg linkOf (update_self ..)
      · rw [if_neg hh, if_neg fun hp => hh (hfirst.mpr hp)]
    · rw [update_of_ne hj]
      split
      · exact congrArg linkOf (update_of_ne hj ..)
      · rfl
  · show Links.mk (linkOf ((s.removeTag a).tag b).prev) (linkOf ((s.removeTag a).tag b).next) =
      update (bypass s.shelves.node a) a ⟨none, none⟩ b
    rw [removeTag_tag hD hrem hb]
    by_cases hba : b = a
    · rw [if_pos hba, hba, update_self]
      rfl
    · have hlink : ∀ p : Uptr, (b = p) = (linkOf p = some b) := fun p => propext
        ⟨fun he => he ▸ linkOf_self (hD.nonzero b hb), fun he => (linkOf_some.mp he).1.symm⟩
      rw [if_neg hba, update_of_ne hba, bypass_apply]
      simp only [hlink, apply_ite linkOf]
      rfl
  · show shelfOf ((s.removeTag a).tag b).index = update s.shelves.shelf a none b
    rw [removeTag_tag hD hrem hb]
    by_cases hba : b = a
    · rw [if_pos hba, hba, update_self]
      exact shelfOf_taken
    · rw [if_neg hba, update_of_ne hba]
      rfl

variable {D' : Uptr → Prop} {r : Nat} {index : Int}

theorem head_listed (h : Shelved s.shelves D lists) :
    s.freePages i = 0 ∨ D (s.freePages i) ∧ s.freePages i ∈ lists i := by
  by_cases hne : s.freePages i = 0
  · exact .inl hne
  · have hmem := shelved_head h (linkOf_self hne)
    exact .inr ⟨((h.member i _).mp hmem).1, hmem⟩

/-- **The free lists with one tag more.** -/
theorem insertTag_shelves (hD' : Headers D') (hDD' : ∀ b, D' b ↔ b = a ∨ D b)
    (h : Shelved s.shelves D lists) (hout : ∀ j, a ∉ lists j) (hprev : (s.tag a).prev = 0)
    (hnext : (s.tag a).next = 0) (hr : s.realIndex a index = r) (hlt : r < 2 ^ 31) :
    Shelved (s.insertTag a index).shelves D' (update lists r (a :: lists r)) := by
  have ha : D' a := (hDD' a).mpr (.inl rfl)
  have hnonzero := hD'.nonzero a ha
  have hhead : s.freePages r = 0 ∨ D' (s.freePages r) :=
    (head_listed h).imp_right fun hm => (hDD' _).mpr (.inr hm.1)
  have hne : s.freePages r ≠ a := by
    rintro he
    exact (head_listed h).elim (fun h0 => hnonzero (he ▸ h0)) fun hm => hout r (he ▸ hm.2)
  have hlinkne : s.shelves.head r ≠ some a := fun he => hne (linkOf_some.mp he).1
  refine shelved_congr (shelved_put h hout hDD' r) ?_ (fun b hb => ?_) fun b hb => ?_
  · have hstat := congrArg LibStatics.freePages (insertTag_statics (s := s) (a := a) index)
    funext j
    show linkOf ((s.insertTag a index).freePages j) =
      update (fun i => linkOf (s.freePages i)) r (some a) j
    rw [hstat, hr]
    by_cases hj : j = r
    · rw [hj, update_self]
      show linkOf (update s.freePages r a r) = some a
      rw [update_self]
      exact linkOf_self hnonzero
    · rw [update_of_ne hj]
      exact congrArg linkOf (update_of_ne hj ..)
  · show Links.mk (linkOf ((s.insertTag a index).tag b).prev)
      (linkOf ((s.insertTag a index).tag b).next) = linkFront s.shelves.node (s.shelves.head r) a b
    rw [insertTag_tag hD' ha hr hhead hne hb, linkFront_apply hlinkne]
    by_cases hba : b = a
    · rw [if_pos hba, if_pos hba]
      show Links.mk (linkOf (s.tag a).prev) (linkOf (if s.freePages r = 0 then (s.tag a).next
        else s.freePages r)) = Links.mk none (linkOf (s.freePages r))
      rw [hprev, hnext]
      by_cases hnull : s.freePages r = 0
      · rw [if_pos hnull, hnull]
        rfl
      · rw [if_neg hnull]
        rfl
    · rw [if_neg hba, if_neg hba]
      by_cases hbh : b = s.freePages r
      · have hsome : s.shelves.head r = some b := hbh ▸ linkOf_self (hbh ▸ hD'.nonzero b hb)
        rw [if_pos hbh, if_pos hsome, ← linkOf_self hnonzero]
        rfl
      · have hnone : s.shelves.head r ≠ some b := fun he => hbh (linkOf_some.mp he).1.symm
        rw [if_neg hbh, if_neg hnone]
        rfl
  · show shelfOf ((s.insertTag a index).tag b).index = update s.shelves.shelf a (some r) b
    rw [insertTag_tag hD' ha hr hhead hne hb]
    by_cases hba : b = a
    · rw [if_pos hba, hba, update_self]
      exact shelfOf_ofNat hlt
    · rw [if_neg hba, update_of_ne hba]
      split
      · rfl
      · rfl

/-! ## 6. Two blocks become one -/

/-- `left` with the tag `a` behind it; the rest of both functions that make one block of two. -/
def joinTags (s : LibState ω) (left a : Uptr) : LibState ω :=
  let s := s.modTag left fun t => { t with realSize := t.realSize + (s.tag a).realSize }
  let s := s.modTag left fun t => { t with splitRight := (s.tag a).splitRight }
  s.modLink (s.tag a).splitRight fun t => { t with splitLeft := left }

theorem meltLeft_eq (s : LibState ω) (a : Uptr) :
    s.meltLeft a = ((s.tag a).splitLeft, s.joinTags (s.tag a).splitLeft a) := rfl

theorem absorbRight_eq (s : LibState ω) (a : Uptr) : s.absorbRight a =
    (s.removeTag (s.tag a).splitRight).joinTags a (s.tag a).splitRight := rfl

/-- What stands beside two tags that are joined. -/
structure Joinable (D : Uptr → Prop) (s : LibState ω) (l a : Uptr) : Prop where
  left : D l
  mem : D a
  right : (s.tag a).splitRight = 0 ∨ D (s.tag a).splitRight
  left_ne : a ≠ l
  right_ne : a ≠ (s.tag a).splitRight
  ends_ne : l ≠ (s.tag a).splitRight

variable {l : Uptr}

theorem joinTags_tag (hD : Headers D) (h : Joinable D s l a) (hb : D b) :
    (s.joinTags l a).tag b =
      if b = l then { s.tag l with
        realSize := (s.tag l).realSize + (s.tag a).realSize
        splitRight := (s.tag a).splitRight }
      else if b = (s.tag a).splitRight then { s.tag b with splitLeft := l } else s.tag b := by
  unfold joinTags
  dsimp only
  generalize hs₁ : (s.modTag l fun t => { t with realSize := t.realSize + (s.tag a).realSize }) = s₁
  have h₁ : ∀ c, D c → s₁.tag c = if c = l then
      { s.tag l with realSize := (s.tag l).realSize + (s.tag a).realSize } else s.tag c := by
    intro c hc
    rw [← hs₁, tag_modTag hD h.left hc]
  have ha₁ : s₁.tag a = s.tag a := by rw [h₁ a h.mem, if_neg h.left_ne]
  rw [ha₁]
  generalize hs₂ : (s₁.modTag l fun t => { t with splitRight := (s.tag a).splitRight }) = s₂
  have h₂ : ∀ c, D c → s₂.tag c = if c = l then { s.tag l with
      realSize := (s.tag l).realSize + (s.tag a).realSize
      splitRight := (s.tag a).splitRight } else s.tag c := by
    intro c hc
    rw [← hs₂, tag_modTag hD h.left hc, h₁ l h.left, if_pos rfl, h₁ c hc]
    split
    · rfl
    · rfl
  have ha₂ : s₂.tag a = s.tag a := by rw [h₂ a h.mem, if_neg h.left_ne]
  rw [ha₂, tag_modLink hD h.right hb]
  split
  · rename_i hbr
    rw [hbr, if_neg h.ends_ne.symm, h₂ _ (hbr ▸ hb), if_neg h.ends_ne.symm]
  · rw [h₂ b hb]

theorem joinTags_statics : (s.joinTags l a).toLibStatics = s.toLibStatics := by
  unfold joinTags
  simp only [modTag_statics, modLink_statics]

theorem joinTags_sameOff (hD : Headers D) (h : Joinable D s l a) :
    SameOff (InHeaders D) s.mem (s.joinTags l a).mem := by
  unfold joinTags
  dsimp only
  generalize hs₁ : (s.modTag l fun t => { t with realSize := t.realSize + (s.tag a).realSize }) = s₁
  have h₁ : SameOff (InHeaders D) s.mem s₁.mem := by
    rw [← hs₁]
    exact sameOff_modTag h.left
  have ha₁ : s₁.tag a = s.tag a := by
    rw [← hs₁, tag_modTag hD h.left h.mem, if_neg h.left_ne]
  rw [ha₁]
  generalize hs₂ : (s₁.modTag l fun t => { t with splitRight := (s.tag a).splitRight }) = s₂
  have h₂ : SameOff (InHeaders D) s₁.mem s₂.mem := by
    rw [← hs₂]
    exact sameOff_modTag h.left
  have ha₂ : s₂.tag a = s.tag a := by
    rw [← hs₂, tag_modTag hD h.left h.mem, if_neg h.left_ne, ha₁]
  refine sameOff_trans h₁ (sameOff_trans h₂ (sameOff_modLink ?_))
  rw [ha₂]
  exact h.right

variable {area : Uptr → Option Extent} {A : Extent}

/-- The neighbour behind a block, if its tag has one. -/
theorem splitRight_block (h : Tiling BitVec.toNat (s.tiles area)) (ha : area a = some A) :
    (s.tag a).splitRight = 0 ∨ area (s.tag a).splitRight = some A ∧
      (s.tag a).splitRight.toNat = a.toNat + (s.tag a).realSize.toNat ∧
      (s.tag (s.tag a).splitRight).splitLeft = a := by
  by_cases hne : (s.tag a).splitRight = 0
  · exact .inl hne
  · obtain ⟨hr, hpos, hback⟩ := h.right a A _ ha (linkOf_self hne)
    exact .inr ⟨hr, hpos, (linkOf_some.mp hback).1⟩

theorem joinable (h : Tiling BitVec.toNat (s.tiles area)) (hl : area l = some A)
    (hn : linkOf (s.tag l).splitRight = some a) : Joinable (IsBlock area) s l a := by
  obtain ⟨ha, hpos, -⟩ := h.right l A a hl hn
  have hpos : a.toNat = l.toNat + (s.tag l).realSize.toNat := hpos
  have hlsize : 0 < (s.tag l).realSize.toNat := h.nonempty l A hl
  have hasize : 0 < (s.tag a).realSize.toNat := h.nonempty a A ha
  have hright := splitRight_block h ha
  have hzero := (linkOf_some.mp hn).2
  refine ⟨isBlock_some hl, isBlock_some ha, hright.imp_right fun hr => isBlock_some hr.1,
    (tiling_right_ne h hl hn).symm, fun he => ?_, fun he => ?_⟩
  · rcases hright with h0 | ⟨-, hp, -⟩
    · exact hzero (he.trans h0)
    · rw [← he] at hp
      omega
  · rcases hright with h0 | ⟨-, hp, -⟩
    · -- a block at the null pointer has nothing before it
      rw [h0] at he
      have hback := (h.right l A a hl hn).2.2
      exact (linkOf_some.mp hback).2 he
    · rw [← he] at hp
      omega

theorem joinTags_sides (hD : Headers (IsBlock area)) (hjoin : Joinable (IsBlock area) s l a)
    (hb : IsBlock area b) : ((s.joinTags l a).tiles (update area a none)).sides b =
      ((s.tiles area).joined l a).sides b := by
  show Links.mk (linkOf ((s.joinTags l a).tag b).splitLeft)
      (linkOf ((s.joinTags l a).tag b).splitRight) =
    { prev := if linkOf (s.tag a).splitRight = some b then some l else linkOf (s.tag b).splitLeft
      next := if b = l then linkOf (s.tag a).splitRight else linkOf (s.tag b).splitRight }
  rw [joinTags_tag hD hjoin hb]
  by_cases hbl : b = l
  · have hne : linkOf (s.tag a).splitRight ≠ some b := fun he =>
      hjoin.ends_ne (hbl.symm.trans (linkOf_some.mp he).1.symm)
    rw [if_pos hbl, if_pos hbl, if_neg hne, hbl]
  · rw [if_neg hbl, if_neg hbl]
    by_cases hbr : b = (s.tag a).splitRight
    · have hsome : linkOf (s.tag a).splitRight = some b :=
        hbr ▸ linkOf_self (hbr ▸ hD.nonzero b hb)
      rw [if_pos hbr, if_pos hsome, ← linkOf_self (hD.nonzero l hjoin.left)]
    · rw [if_neg hbr, if_neg fun he => hbr (linkOf_some.mp he).1.symm]

/-- **Two neighbours are one block.** -/
theorem joinTags_tiles (hD : Headers (IsBlock area)) (h : Tiling BitVec.toNat (s.tiles area))
    (hl : area l = some A) (hn : linkOf (s.tag l).splitRight = some a)
    (hsum : (s.tag l).realSize.toNat + (s.tag a).realSize.toNat < 2 ^ 32) :
    Tiling BitVec.toNat ((s.joinTags l a).tiles (update area a none)) := by
  have hjoin := joinable h hl hn
  have hblock : ∀ b B, ((s.tiles area).joined l a).area b = some B → IsBlock area b := by
    intro b B hb
    by_cases hba : b = a
    · rw [hba, show ((s.tiles area).joined l a).area a = none from update_self ..] at hb
      cases hb
    · rw [show ((s.tiles area).joined l a).area b = area b from update_of_ne hba ..] at hb
      exact isBlock_some hb
  refine tiling_congr (tiling_joined h hl hn) rfl (fun b B hb => ?_)
    fun b B hb => joinTags_sides hD hjoin (hblock b B hb)
  show ((s.joinTags l a).tag b).realSize.toNat =
    update (fun c => (s.tag c).realSize.toNat) l
      ((s.tag l).realSize.toNat + (s.tag a).realSize.toNat) b
  rw [joinTags_tag hD hjoin (hblock b B hb)]
  by_cases hbl : b = l
  · rw [if_pos hbl, hbl, update_self]
    exact (BitVec.toNat_add ..).trans (Nat.mod_eq_of_lt hsum)
  · rw [if_neg hbl, update_of_ne hbl]
    split
    · rfl
    · rfl

/-! ## 7. One block becomes two -/

/-- The size of the block that is cut off. -/
def rest (s : LibState ω) (a : Uptr) : U32 :=
  (s.tag a).realSize - SIZEOF_BOUNDARY_TAG.setWidth 32 - (s.tag a).size

/-- What stands beside a tag that is cut. -/
structure Cuttable (D : Uptr → Prop) (s : LibState ω) (a n : Uptr) : Prop where
  mem : D a
  new : D n
  right : (s.tag a).splitRight = 0 ∨ D (s.tag a).splitRight
  new_ne : n ≠ a
  right_ne : a ≠ (s.tag a).splitRight
  ends_ne : n ≠ (s.tag a).splitRight

variable {n : Uptr}

theorem cutTag_tag (hD : Headers D) (h : Cuttable D s a n) (hb : D b) :
    (s.cutTag a n).tag b =
      if b = n then { s.tag n with
        magic := LIBALLOC_MAGIC, realSize := s.rest a, next := 0, prev := 0, splitLeft := a
        splitRight := (s.tag a).splitRight }
      else if b = a then { s.tag a with
        splitRight := n, realSize := (s.tag a).realSize - s.rest a }
      else if b = (s.tag a).splitRight then { s.tag b with splitLeft := n } else s.tag b := by
  unfold cutTag
  dsimp only
  generalize hs₁ : (s.modTag n fun u => { u with
    magic := LIBALLOC_MAGIC
    realSize := (s.tag a).realSize - SIZEOF_BOUNDARY_TAG.setWidth 32 - (s.tag a).size
    next := 0, prev := 0, splitLeft := a, splitRight := (s.tag a).splitRight }) = s₁
  have h₁ : ∀ c, D c → s₁.tag c = if c = n then { s.tag n with
      magic := LIBALLOC_MAGIC, realSize := s.rest a, next := 0, prev := 0, splitLeft := a
      splitRight := (s.tag a).splitRight } else s.tag c := by
    intro c hc
    rw [← hs₁, tag_modTag hD h.new hc]
    rfl
  have hr₁ : (s₁.tag n).splitRight = (s.tag a).splitRight := by rw [h₁ n h.new, if_pos rfl]
  rw [hr₁]
  generalize hs₂ : (s₁.modLink (s.tag a).splitRight fun u => { u with splitLeft := n }) = s₂
  have h₂ : ∀ c, D c → s₂.tag c = if c = (s.tag a).splitRight then
      { s.tag c with splitLeft := n } else s₁.tag c := by
    intro c hc
    rw [← hs₂, tag_modLink hD h.right hc]
    split
    · rename_i hcr
      rw [← hcr, h₁ c hc, if_neg fun hcn => h.ends_ne (hcn.symm.trans hcr)]
    · rfl
  have ha₂ : s₂.tag a = s.tag a := by
    rw [h₂ a h.mem, if_neg h.right_ne, h₁ a h.mem, if_neg h.new_ne.symm]
  have hn₂ : s₂.tag n = s₁.tag n := by rw [h₂ n h.new, if_neg h.ends_ne]
  generalize hs₃ : (s₂.modTag a fun u => { u with splitRight := n }) = s₃
  have h₃ : ∀ c, D c → s₃.tag c = if c = a then { s.tag a with splitRight := n }
      else s₂.tag c := by
    intro c hc
    rw [← hs₃, tag_modTag hD h.mem hc, ha₂]
  have hn₃ : (s₃.tag n).realSize = s.rest a := by
    rw [h₃ n h.new, if_neg h.new_ne, hn₂, h₁ n h.new, if_pos rfl]
  rw [tag_modTag hD h.mem hb, h₃ a h.mem, if_pos rfl, hn₃]
  by_cases hba : b = a
  · rw [if_pos hba, if_neg (hba ▸ h.new_ne.symm), if_pos hba]
  · rw [if_neg hba, h₃ b hb, if_neg hba, if_neg hba, h₂ b hb]
    by_cases hbn : b = n
    · rw [if_pos hbn, if_neg (hbn ▸ h.ends_ne), h₁ b hb, if_pos hbn]
    · rw [if_neg hbn, h₁ b hb, if_neg hbn]

theorem cutTag_statics : (s.cutTag a n).toLibStatics = s.toLibStatics := by
  unfold cutTag
  simp only [modTag_statics, modLink_statics]

theorem cutTag_sameOff (hD : Headers D) (h : Cuttable D s a n) :
    SameOff (InHeaders D) s.mem (s.cutTag a n).mem := by
  unfold cutTag
  dsimp only
  generalize hs₁ : (s.modTag n fun u => { u with
    magic := LIBALLOC_MAGIC
    realSize := (s.tag a).realSize - SIZEOF_BOUNDARY_TAG.setWidth 32 - (s.tag a).size
    next := 0, prev := 0, splitLeft := a, splitRight := (s.tag a).splitRight }) = s₁
  have h₁ : SameOff (InHeaders D) s.mem s₁.mem := by
    rw [← hs₁]
    exact sameOff_modTag h.new
  have hr₁ : (s₁.tag n).splitRight = (s.tag a).splitRight := by
    rw [← hs₁, tag_modTag hD h.new h.new, if_pos rfl]
  rw [hr₁]
  generalize hs₂ : (s₁.modLink (s.tag a).splitRight fun u => { u with splitLeft := n }) = s₂
  have h₂ : SameOff (InHeaders D) s₁.mem s₂.mem := by
    rw [← hs₂]
    exact sameOff_modLink h.right
  generalize hs₃ : (s₂.modTag a fun u => { u with splitRight := n }) = s₃
  have h₃ : SameOff (InHeaders D) s₂.mem s₃.mem := by
    rw [← hs₃]
    exact sameOff_modTag h.mem
  exact sameOff_trans h₁ (sameOff_trans h₂ (sameOff_trans h₃ (sameOff_modTag h.mem)))

/-- The sizes of the two blocks. -/
theorem toNat_rest (hroom : 48 + (s.tag a).size.toNat ≤ (s.tag a).realSize.toNat) :
    (s.rest a).toNat = (s.tag a).realSize.toNat - (48 + (s.tag a).size.toNat) ∧
      ((s.tag a).realSize - s.rest a).toNat = 48 + (s.tag a).size.toNat := by
  have h48 : (SIZEOF_BOUNDARY_TAG.setWidth 32 : U32).toNat = 48 := rfl
  have hsub : ((s.tag a).realSize - SIZEOF_BOUNDARY_TAG.setWidth 32).toNat =
      (s.tag a).realSize.toNat - 48 := by
    rw [BitVec.toNat_sub_of_le (by rw [BitVec.le_def, h48]; omega), h48]
  have hrest : (s.rest a).toNat = (s.tag a).realSize.toNat - (48 + (s.tag a).size.toNat) := by
    unfold rest
    rw [BitVec.toNat_sub_of_le (by rw [BitVec.le_def, hsub]; omega), hsub]
    omega
  refine ⟨hrest, ?_⟩
  rw [BitVec.toNat_sub_of_le (by rw [BitVec.le_def, hrest]; omega), hrest]
  omega

theorem cuttable (hD : Headers (IsBlock (update area n (area a))))
    (h : Tiling BitVec.toNat (s.tiles area)) (ha : area a = some A) (hn : area n = none) :
    Cuttable (IsBlock (update area n (area a))) s a n := by
  have hold : ∀ {b B}, area b = some B → b ≠ n ∧ IsBlock (update area n (area a)) b := by
    intro b B hb
    have hbn : b ≠ n := by
      rintro rfl
      rw [hn] at hb
      cases hb
    refine ⟨hbn, ?_⟩
    unfold IsBlock
    rw [update_of_ne hbn, hb]
    exact Option.some_ne_none B
  have hnew : IsBlock (update area n (area a)) n := by
    unfold IsBlock
    rw [update_self, ha]
    exact Option.some_ne_none A
  have hsize : 0 < (s.tag a).realSize.toNat := h.nonempty a A ha
  have hright := splitRight_block h ha
  refine ⟨(hold ha).2, hnew, hright.imp_right fun hr => (hold hr.1).2, (hold ha).1.symm,
    fun he => ?_, fun he => ?_⟩
  · rcases hright with h0 | ⟨-, hp, -⟩
    · exact hD.nonzero a (hold ha).2 (he.trans h0)
    · rw [← he] at hp
      omega
  · rcases hright with h0 | ⟨hr, -, -⟩
    · exact hD.nonzero n hnew (he.trans h0)
    · exact (hold hr).1 he.symm

theorem cutTag_sides (hD : Headers (IsBlock (update area n (area a))))
    (hcut : Cuttable (IsBlock (update area n (area a))) s a n) {k : Nat}
    (hb : IsBlock (update area n (area a)) b) :
    ((s.cutTag a n).tiles (update area n (area a))).sides b =
      ((s.tiles area).split a n k).sides b := by
  show Links.mk (linkOf ((s.cutTag a n).tag b).splitLeft)
      (linkOf ((s.cutTag a n).tag b).splitRight) =
    { prev := if b = n then some a else if linkOf (s.tag a).splitRight = some b then some n
        else linkOf (s.tag b).splitLeft
      next := if b = n then linkOf (s.tag a).splitRight else if b = a then some n
        else linkOf (s.tag b).splitRight }
  rw [cutTag_tag hD hcut hb]
  by_cases hbn : b = n
  · rw [if_pos hbn, if_pos hbn, if_pos hbn, ← linkOf_self (hD.nonzero a hcut.mem)]
  · rw [if_neg hbn, if_neg hbn, if_neg hbn, ← linkOf_self (hD.nonzero n hcut.new)]
    by_cases hba : b = a
    · have hne : linkOf (s.tag a).splitRight ≠ some b := fun he =>
        hcut.right_ne (hba.symm.trans (linkOf_some.mp he).1.symm)
      rw [if_pos hba, if_pos hba, if_neg hne, hba]
    · rw [if_neg hba, if_neg hba]
      by_cases hbr : b = (s.tag a).splitRight
      · have hsome : linkOf (s.tag a).splitRight = some b :=
          hbr ▸ linkOf_self (hbr ▸ hD.nonzero b hb)
        rw [if_pos hbr, if_pos hsome]
      · rw [if_neg hbr, if_neg fun he => hbr (linkOf_some.mp he).1.symm]

/-- **A block is cut in two.** -/
theorem cutTag_tiles (hD : Headers (IsBlock (update area n (area a))))
    (h : Tiling BitVec.toNat (s.tiles area)) (ha : area a = some A) (hn : area n = none)
    (hroom : 48 + (s.tag a).size.toNat < (s.tag a).realSize.toNat)
    (hpos : n.toNat = a.toNat + (48 + (s.tag a).size.toNat)) :
    Tiling BitVec.toNat ((s.cutTag a n).tiles (update area n (area a))) := by
  have hcut := cuttable hD h ha hn
  obtain ⟨hrest, hkeep⟩ := toNat_rest (s := s) (a := a) (Nat.le_of_lt hroom)
  refine tiling_congr (tiling_split h ha hn (by omega) hroom hpos) rfl (fun b B hb => ?_)
    fun b B hb => cutTag_sides hD hcut (isBlock_some hb)
  show ((s.cutTag a n).tag b).realSize.toNat =
    update (update (fun c => (s.tag c).realSize.toNat) a (48 + (s.tag a).size.toNat)) n
      ((s.tag a).realSize.toNat - (48 + (s.tag a).size.toNat)) b
  rw [cutTag_tag hD hcut (isBlock_some hb)]
  by_cases hbn : b = n
  · rw [if_pos hbn, hbn, update_self]
    exact hrest
  · rw [if_neg hbn, update_of_ne hbn]
    by_cases hba : b = a
    · rw [if_pos hba, hba, update_self]
      exact hkeep
    · rw [if_neg hba, update_of_ne hba]
      split
      · rfl
      · rfl

end Tags

end LibState

end Slightx
