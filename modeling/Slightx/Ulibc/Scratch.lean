/-
  File:      Slightx/Ulibc/Scratch.lean
  Subject:   The scratch allocator: a list threaded through the blocks of another allocator.

  Sources: ulibc/mem/scratch.c, ulibc/mem/scratch.h, ulibc/mem/alloc.c.

  A header of 24 bytes stands before the payload of each block, with the links and the size. The
  backing allocator is a parameter, with the contracts `Allocator.Meets`; its `reallocate` may move
  a block, header included, while the block is in the list. `calls` is a record of what it was
  asked, which no code reads.

  * `linksOn_patchMem` -- the two stores to the neighbours are an edit of the list in memory
  * `scratchStep_cases` -- the list stays the list of the blocks the client has
  * `Books` -- an account of the backing allocator: who returns a block had it, with this size
  * `scratch_keeps` -- after every run the list is the client's blocks, their bytes are the ones
    written, and `scratch_deinit` settles the account
-/
import Slightx.Mem.Heap
import Slightx.Lib.DList
import Slightx.Lib.Machine

namespace Slightx

open Lib Function

/-! ## 1. The backing allocator -/

/-- `struct allocator` -/
structure Allocator (ω : Type) where
  allocate : Usize → Prog Fault (HeapState ω) Uptr
  reallocate : Uptr → Usize → Usize → Prog Fault (HeapState ω) Uptr
  deallocate : Uptr → Usize → Prog Fault (HeapState ω) Unit

section Alloc

variable {ω : Type} (a : Allocator ω)

/-- `allocate` -/
def allocateFrom (sz : Usize) : Prog Fault (HeapState ω) Uptr := do
  assert (0 < sz) "sz > 0"
  let ptr ← a.allocate sz
  assertRelease (ptr ≠ 0) "ptr != NULL"
  onBytes (modify fun m => fill m ptr.toNat sz.toNat 0)
  return ptr

/-- `reallocate` -/
def reallocateFrom (ptr : Uptr) (oldsz newsz : Usize) : Prog Fault (HeapState ω) Uptr := do
  let newptr ← a.reallocate ptr oldsz newsz
  let _ ← (if newptr ≠ 0 ∧ oldsz < newsz then
      onBytes (modify fun m => fill m (newptr.toNat + oldsz.toNat) (newsz - oldsz).toNat 0)
    else pure ())
  return newptr

/-- `deallocate` -/
def deallocateFrom (ptr : Uptr) (sz : Usize) : Prog Fault (HeapState ω) Unit :=
  if ptr ≠ 0 then a.deallocate ptr sz else pure ()

end Alloc

/-- A block of `n` bytes at `p`, apart from the others. -/
structure NewBlock (blocks : Uptr → Option Usize) (p : Uptr) (n : Usize) : Prop where
  null : p ≠ 0
  fresh : blocks p = none
  fits : p.toNat + n.toNat < 2 ^ 64
  apart : ∀ b k, blocks b = some k →
    p.toNat + n.toNat ≤ b.toNat ∨ b.toNat + k.toNat ≤ p.toNat

/-- **The contracts of the backing allocator**, in the states `I` that it keeps: it gives a block or
    `NULL`, and takes back a block that it gave, with the size it gave it with. -/
structure Allocator.Meets {ω : Type} (a : Allocator ω) (I : (Uptr → Option Usize) → ω → Prop) :
    Prop where
  allocate : ∀ n s, 0 < n → I s.blocks s.rest → wp (a.allocate n) s fun p t =>
    I t.blocks t.rest ∧ BlocksKept s.blocks s.mem t.mem ∧
      (p = 0 ∧ t.blocks = s.blocks ∨
        NewBlock s.blocks p n ∧ t.blocks = update s.blocks p (some n))
  reallocate : ∀ b k n s, 0 < n → I s.blocks s.rest → s.blocks b = some k →
    wp (a.reallocate b k n) s fun p t =>
      I t.blocks t.rest ∧ BlocksKept (update s.blocks b none) s.mem t.mem ∧
        (p = 0 ∧ t.blocks = s.blocks ∨
          NewBlock (update s.blocks b none) p n ∧
            t.blocks = update (update s.blocks b none) p (some n) ∧
            ∀ i, i < min k.toNat n.toNat → t.mem (p.toNat + i) = s.mem (b.toNat + i))
  deallocate : ∀ b k s, I s.blocks s.rest → s.blocks b = some k →
    wp (a.deallocate b k) s fun _ t =>
      I t.blocks t.rest ∧ BlocksKept (update s.blocks b none) s.mem t.mem ∧
        t.blocks = update s.blocks b none

/-! ## 2. The scratch allocator -/

/-- What the backing allocator was asked, and what it answered. -/
inductive BackingCall where
  | obtained (p : Uptr) (sz : Usize)
  | moved (p : Uptr) (oldsz : Usize) (q : Uptr) (newsz : Usize)
  | returned (p : Uptr) (sz : Usize)
  deriving DecidableEq, Repr

structure ScratchState (ω : Type) where
  head : Uptr
  heap : HeapState ω
  calls : List BackingCall

/-- `sizeof(scratch_alloc_hdr)`, which is `offsetof(scratch_alloc_hdr, data)`. -/
def SIZEOF_SCRATCH_ALLOC_HDR : Usize := 24

section Scratch

variable {ω : Type} (a : Allocator ω)

def inScratchHeap {α : Type} (x : Prog Fault (HeapState ω) α) : Prog Fault (ScratchState ω) α :=
  zoom ScratchState.heap (fun s heap => { s with heap }) x

def recordCall (c : BackingCall) : Prog Fault (ScratchState ω) Unit :=
  modify fun s => { s with calls := s.calls ++ [c] }

/-- The word at `addr`. -/
def loadField (addr : Nat) : Prog Fault (ScratchState ω) U64 := do
  return load64 (← get).heap.mem addr

def storeField (addr : Nat) (w : U64) : Prog Fault (ScratchState ω) Unit :=
  inScratchHeap (onBytes (modify fun m => store64 m addr w))

def setScratchHead (hdr : Uptr) : Prog Fault (ScratchState ω) Unit :=
  modify fun s => { s with head := hdr }

/-- `self->head = NULL`; the functions of the allocator are parameters here. -/
def scratchInit : Prog Fault (ScratchState ω) Unit := setScratchHead 0

def hdrFromPtr (ptr : Uptr) : Prog Fault (ScratchState ω) Uptr := do
  assert (ptr ≠ 0) "ptr != NULL"
  return ptr - SIZEOF_SCRATCH_ALLOC_HDR

/-- The end of `scratch_allocate`: `hdr` before the head. -/
def pushHdr (hdr : Uptr) : Prog Fault (ScratchState ω) Unit := do
  let head := (← get).head
  if head = 0 then setScratchHead hdr
  else do
    storeField (hdr.toNat + 8) head
    storeField (← loadField (hdr.toNat + 8)).toNat hdr
    setScratchHead hdr

def scratchAllocate (size : Usize) : Prog Fault (ScratchState ω) Uptr := do
  let hdr ← inScratchHeap (allocateFrom a (SIZEOF_SCRATCH_ALLOC_HDR + size))
  recordCall (.obtained hdr (SIZEOF_SCRATCH_ALLOC_HDR + size))
  storeField (hdr.toNat + 16) size
  pushHdr hdr
  return hdr + SIZEOF_SCRATCH_ALLOC_HDR

/-- `if (prev != NULL) prev->next = a; else self->head = a; if (next != NULL) next->prev = b;` -/
def patchNeighbours (prev next a b : Uptr) : Prog Fault (ScratchState ω) Unit := do
  let _ ← (if prev ≠ 0 then storeField (prev.toNat + 8) a else setScratchHead a)
  if next ≠ 0 then storeField next.toNat b else pure ()

def scratchReallocate (ptr : Uptr) (oldSize newSize : Usize) :
    Prog Fault (ScratchState ω) Uptr := do
  let hdr ← hdrFromPtr ptr
  assert ((← loadField (hdr.toNat + 16)) = oldSize) "hdr->size == old_size"
  let prev ← loadField hdr.toNat
  let next ← loadField (hdr.toNat + 8)
  let hdrOsize := SIZEOF_SCRATCH_ALLOC_HDR + oldSize
  let hdrNsize := SIZEOF_SCRATCH_ALLOC_HDR + newSize
  let newHdr ← inScratchHeap (reallocateFrom a hdr hdrOsize hdrNsize)
  recordCall (.moved hdr hdrOsize newHdr hdrNsize)
  -- `hdr->size` of a `NULL` pointer
  if newHdr = 0 then throw (.pageFault 16)
  else
    storeField (newHdr.toNat + 16) newSize
    patchNeighbours prev next newHdr newHdr
    return newHdr + SIZEOF_SCRATCH_ALLOC_HDR

def scratchDeallocate (ptr : Uptr) (size : Usize) : Prog Fault (ScratchState ω) Unit := do
  let hdr ← hdrFromPtr ptr
  assert ((← loadField (hdr.toNat + 16)) = size) "hdr->size == size"
  let prev ← loadField hdr.toNat
  let next ← loadField (hdr.toNat + 8)
  inScratchHeap (deallocateFrom a hdr (SIZEOF_SCRATCH_ALLOC_HDR + size))
  recordCall (.returned hdr (SIZEOF_SCRATCH_ALLOC_HDR + size))
  patchNeighbours prev next next prev

/-- The loop of `scratch_deinit`, over at most `fuel` blocks. -/
def scratchDeinitLoop : (fuel : Nat) → (current : Uptr) → Prog Fault (ScratchState ω) Unit
  | 0, _ => pure ()
  | fuel + 1, current =>
      if current = 0 then pure ()
      else do
        let next ← loadField (current.toNat + 8)
        let size ← loadField (current.toNat + 16)
        inScratchHeap (deallocateFrom a current (SIZEOF_SCRATCH_ALLOC_HDR + size))
        recordCall (.returned current (SIZEOF_SCRATCH_ALLOC_HDR + size))
        scratchDeinitLoop fuel next

def scratchDeinit (fuel : Nat) : Prog Fault (ScratchState ω) Unit := do
  scratchDeinitLoop a fuel (← get).head
  setScratchHead 0

end Scratch

/-! ## 3. The client -/

/-- A block the client has: where its header is, its size, and the bytes the client expects. -/
structure ScratchBlock where
  hdr : Uptr
  size : Usize
  bytes : Nat → U8

/-- The size of the block as the backing allocator sees it. -/
def ScratchBlock.total (b : ScratchBlock) : Usize := SIZEOF_SCRATCH_ALLOC_HDR + b.size

/-- `data`, the pointer the client has. -/
def ScratchBlock.data (b : ScratchBlock) : Uptr := b.hdr + SIZEOF_SCRATCH_ALLOC_HDR

inductive ScratchCall where
  | allocate (size : Usize)
  | reallocate (ptr : Uptr) (oldSize newSize : Usize)
  | deallocate (ptr : Uptr) (size : Usize)
  /-- the client writes byte `i` of the block at `ptr` -/
  | write (ptr : Uptr) (i : Nat) (byte : U8)

def ScratchCall.run {ω : Type} (a : Allocator ω) : ScratchCall → Prog Fault (ScratchState ω) Uptr
  | allocate size => scratchAllocate a size
  | reallocate ptr oldSize newSize => scratchReallocate a ptr oldSize newSize
  | deallocate ptr size => do
      scratchDeallocate a ptr size
      return 0
  | write ptr i byte => do
      inScratchHeap (onBytes (modify fun m => setByte m (ptr.toNat + i) byte))
      return 0

/-- The block at `ptr` in the client's view. -/
def editBlock (live : List ScratchBlock) (ptr : Uptr) (f : ScratchBlock → ScratchBlock) :
    List ScratchBlock :=
  live.map fun b => if b.data = ptr then f b else b

/-- The client's view after a call that answered `p`: a new block is zeroed, and so is what a
    reallocation adds. -/
def ScratchCall.record (live : List ScratchBlock) (p : Uptr) : ScratchCall → List ScratchBlock
  | allocate size => ⟨p - SIZEOF_SCRATCH_ALLOC_HDR, size, fun _ => 0⟩ :: live
  | reallocate ptr oldSize newSize => editBlock live ptr fun b =>
      ⟨p - SIZEOF_SCRATCH_ALLOC_HDR, newSize, fun i => if i < oldSize.toNat then b.bytes i else 0⟩
  | deallocate ptr _ => live.filter fun b => b.data ≠ ptr
  | write ptr i byte => editBlock live ptr fun b => { b with bytes := update b.bytes i byte }

structure ScratchRun (ω : Type) where
  state : ScratchState ω
  live : List ScratchBlock

def scratchStep {ω : Type} (a : Allocator ω) (r : ScratchRun ω) (call : ScratchCall) :
    Option (ScratchRun ω) :=
  match call.run a r.state with
  | .ok (p, state) => some ⟨state, call.record r.live p⟩
  | .error _ => none

/-- The client names blocks it has, with their sizes, and writes inside of them. -/
def ScratchLegal {ω : Type} (r : ScratchRun ω) : ScratchCall → Prop
  | .allocate _ => True
  | .reallocate ptr oldSize _ => ∃ b ∈ r.live, b.data = ptr ∧ b.size = oldSize
  | .deallocate ptr size => ∃ b ∈ r.live, b.data = ptr ∧ b.size = size
  | .write ptr i _ => ∃ b ∈ r.live, b.data = ptr ∧ i < b.size.toNat

instance {ω : Type} (r : ScratchRun ω) : DecidablePred (ScratchLegal r) := fun call =>
  match call with
  | .allocate _ => inferInstanceAs (Decidable True)
  | .reallocate ptr oldSize _ =>
      inferInstanceAs (Decidable (∃ b ∈ r.live, b.data = ptr ∧ b.size = oldSize))
  | .deallocate ptr size =>
      inferInstanceAs (Decidable (∃ b ∈ r.live, b.data = ptr ∧ b.size = size))
  | .write ptr i _ =>
      inferInstanceAs (Decidable (∃ b ∈ r.live, b.data = ptr ∧ i < b.size.toNat))

/-- The size of the header can be added. -/
def ScratchFits : ScratchCall → Prop
  | .allocate size => size.toNat + 24 < 2 ^ 64
  | .reallocate _ _ newSize => newSize.toNat + 24 < 2 ^ 64
  | .deallocate _ _ => True
  | .write _ _ _ => True

instance : DecidablePred ScratchFits := fun call =>
  match call with
  | .allocate size => inferInstanceAs (Decidable (size.toNat + 24 < 2 ^ 64))
  | .reallocate _ _ newSize => inferInstanceAs (Decidable (newSize.toNat + 24 < 2 ^ 64))
  | .deallocate _ _ | .write _ _ _ => inferInstanceAs (Decidable True)

/-- The backing allocator has the block it is asked for. -/
def BackingGrants {ω : Type} (a : Allocator ω) (r : ScratchRun ω) : ScratchCall → Prop
  | .allocate size =>
      wp (a.allocate (SIZEOF_SCRATCH_ALLOC_HDR + size)) r.state.heap fun p _ => p ≠ 0
  | .reallocate ptr oldSize newSize =>
      wp (a.reallocate (ptr - SIZEOF_SCRATCH_ALLOC_HDR) (SIZEOF_SCRATCH_ALLOC_HDR + oldSize)
        (SIZEOF_SCRATCH_ALLOC_HDR + newSize)) r.state.heap fun p _ => p ≠ 0
  | .deallocate _ _ => True
  | .write _ _ _ => True

/-- **An honest account**: the blocks outstanding after the calls, each with its current size. A
    block that is moved or returned is one of them, and named with its size. -/
inductive Books : List BackingCall → List (Uptr × Usize) → Prop where
  | start : Books [] []
  | obtained {calls : List BackingCall} {owed : List (Uptr × Usize)} {p : Uptr} {sz : Usize}
      (h : Books calls owed) (hp : p ∉ owed.map Prod.fst) :
      Books (calls ++ [.obtained p sz]) ((p, sz) :: owed)
  | moved {calls : List BackingCall} {l₁ l₂ : List (Uptr × Usize)} {p q : Uptr} {sz newsz : Usize}
      (h : Books calls (l₁ ++ (p, sz) :: l₂)) (hq : q ∉ (l₁ ++ l₂).map Prod.fst) :
      Books (calls ++ [.moved p sz q newsz]) (l₁ ++ (q, newsz) :: l₂)
  | returned {calls : List BackingCall} {l₁ l₂ : List (Uptr × Usize)} {p : Uptr} {sz : Usize}
      (h : Books calls (l₁ ++ (p, sz) :: l₂)) : Books (calls ++ [.returned p sz]) (l₁ ++ l₂)

/-! ## 4. Links in memory -/

/-- A pointer, `none` for `NULL`. -/
def ptrTo (w : U64) : Option Uptr := if w = 0 then none else some w

def linksAt (m : Mem) (hdr : Uptr) : Links Uptr :=
  ⟨ptrTo (load64 m hdr.toNat), ptrTo (load64 m (hdr.toNat + 8))⟩

/-- The links of the headers in `S` are those of `node`. -/
def LinksOn (S : Uptr → Prop) (m : Mem) (node : Uptr → Links Uptr) : Prop :=
  ∀ a, S a → linksAt m a = node a

/-- Headers do not overlap. -/
def Spaced (S : Uptr → Prop) : Prop :=
  ∀ a b, S a → S b → a ≠ b → a.toNat + 24 ≤ b.toNat ∨ b.toNat + 24 ≤ a.toNat

/-- The bytes of the links of the headers in `S`. -/
def LinkBytes (S : Uptr → Prop) (x : Nat) : Prop := ∃ c, S c ∧ c.toNat ≤ x ∧ x < c.toNat + 16

/-- The memory after `patchNeighbours`. -/
def patchMem (m : Mem) (prev next a b : Uptr) : Mem :=
  let m₁ := if prev ≠ 0 then store64 m (prev.toNat + 8) a else m
  if next ≠ 0 then store64 m₁ next.toNat b else m₁

section LinksIn

variable {S : Uptr → Prop} {m m' : Mem} {node : Uptr → Links Uptr} {c prev next a b : Uptr}

theorem ptrTo_some (h : c ≠ 0) : ptrTo c = some c := if_neg h

theorem ptrTo_zero : ptrTo 0 = none := if_pos rfl

theorem ptrTo_eq_some : ptrTo a = some c ↔ a = c ∧ a ≠ 0 := by
  unfold ptrTo
  split
  · rename_i h
    exact ⟨fun he => (Option.some_ne_none _ he.symm).elim, fun he => absurd h he.2⟩
  · rename_i h
    exact ⟨fun he => ⟨Option.some.inj he, h⟩, fun he => congrArg some he.1⟩

theorem linksOn_prev (h : LinksOn S m node) (hs : Spaced S) (hc : S c) (v : U64) :
    LinksOn S (store64 m c.toNat v) (update node c { node c with prev := ptrTo v }) := by
  intro d hd
  by_cases hdc : d = c
  · subst hdc
    rw [update_self, ← h d hd]
    unfold linksAt
    rw [load64_store64_same, load64_store64_ne _ _ (by omega)]
  · rw [update_of_ne hdc, ← h d hd]
    have hapart := hs d c hd hc hdc
    unfold linksAt
    rw [load64_store64_ne _ _ (by omega), load64_store64_ne _ _ (by omega)]

theorem linksOn_next (h : LinksOn S m node) (hs : Spaced S) (hc : S c) (v : U64) :
    LinksOn S (store64 m (c.toNat + 8) v) (update node c { node c with next := ptrTo v }) := by
  intro d hd
  by_cases hdc : d = c
  · subst hdc
    rw [update_self, ← h d hd]
    unfold linksAt
    rw [load64_store64_same, load64_store64_ne _ _ (by omega)]
  · rw [update_of_ne hdc, ← h d hd]
    have hapart := hs d c hd hc hdc
    unfold linksAt
    rw [load64_store64_ne _ _ (by omega), load64_store64_ne _ _ (by omega)]

theorem linksOn_patchNext (h : LinksOn S m node) (hs : Spaced S)
    (hnext : ∀ d, ptrTo next = some d → S d) :
    LinksOn S (if next ≠ 0 then store64 m next.toNat b else m)
      (patched node none (ptrTo next) (ptrTo a) (ptrTo b)) := by
  by_cases hn : next = 0
  · rw [if_neg (fun hne => hne hn), hn, ptrTo_zero]
    exact h
  · rw [if_pos hn, ptrTo_some hn]
    exact linksOn_prev h hs (hnext next (ptrTo_some hn)) b

/-- **The two stores to the neighbours are an edit of the list.** -/
theorem linksOn_patchMem (h : LinksOn S m node) (hs : Spaced S)
    (hprev : ∀ d, ptrTo prev = some d → S d) (hnext : ∀ d, ptrTo next = some d → S d) :
    LinksOn S (patchMem m prev next a b)
      (patched node (ptrTo prev) (ptrTo next) (ptrTo a) (ptrTo b)) := by
  by_cases hp : prev = 0
  · have hnp : ¬ prev ≠ 0 := fun hne => hne hp
    have hmem : patchMem m prev next a b = if next ≠ 0 then store64 m next.toNat b else m := by
      unfold patchMem
      rw [if_neg hnp]
    rw [hmem, hp, ptrTo_zero]
    exact linksOn_patchNext h hs hnext
  · have hmem : patchMem m prev next a b =
        if next ≠ 0 then store64 (store64 m (prev.toNat + 8) a) next.toNat b
        else store64 m (prev.toNat + 8) a := by
      unfold patchMem
      rw [if_pos hp]
    rw [hmem, ptrTo_some hp]
    exact linksOn_patchNext (a := a) (linksOn_next h hs (hprev prev (ptrTo_some hp)) a) hs hnext

theorem sameOff_patchMem (hprev : ∀ d, ptrTo prev = some d → S d)
    (hnext : ∀ d, ptrTo next = some d → S d) :
    SameOff (LinkBytes S) m (patchMem m prev next a b) := by
  have hone : SameOff (LinkBytes S) m (if prev ≠ 0 then store64 m (prev.toNat + 8) a else m) := by
    split
    · rename_i hp
      exact sameOff_store64 fun x hlow hhigh =>
        ⟨prev, hprev prev (ptrTo_some hp), by omega, by omega⟩
    · exact sameOff_refl _ _
  unfold patchMem
  dsimp only
  split
  · rename_i hn
    exact sameOff_trans hone (sameOff_store64 fun x hlow hhigh =>
      ⟨next, hnext next (ptrTo_some hn), by omega, by omega⟩)
  · exact hone

end LinksIn

/-! ## 5. The invariant -/

/-- Its block of the backing allocator is as large as the header and the payload. -/
structure InUse (blocks : Uptr → Option Usize) (b : ScratchBlock) : Prop where
  owned : blocks b.hdr = some b.total
  exact : b.size.toNat + 24 < 2 ^ 64
  null : b.hdr ≠ 0
  fits : b.hdr.toNat + 24 + b.size.toNat < 2 ^ 64

/-- The size and the payload in memory. -/
structure Content (m : Mem) (b : ScratchBlock) : Prop where
  size : load64 m (b.hdr.toNat + 16) = b.size
  bytes : ∀ i, i < b.size.toNat → m (b.hdr.toNat + 24 + i) = b.bytes i

def BlocksApart (b c : ScratchBlock) : Prop :=
  b.hdr.toNat + 24 + b.size.toNat ≤ c.hdr.toNat ∨ c.hdr.toNat + 24 + c.size.toNat ≤ b.hdr.toNat

def hdrsOf (live : List ScratchBlock) : List Uptr := live.map ScratchBlock.hdr

def owedOf (live : List ScratchBlock) : List (Uptr × Usize) := live.map fun b => (b.hdr, b.total)

structure ScratchInv {ω : Type} (I : (Uptr → Option Usize) → ω → Prop) (r : ScratchRun ω) :
    Prop where
  backing : I r.state.heap.blocks r.state.heap.rest
  chain : DList (linksAt r.state.heap.mem) (ptrTo r.state.head) (hdrsOf r.live).getLast?
    (hdrsOf r.live)
  inUse : ∀ b ∈ r.live, InUse r.state.heap.blocks b
  apart : ∀ b ∈ r.live, ∀ c ∈ r.live, b.hdr ≠ c.hdr → BlocksApart b c
  content : ∀ b ∈ r.live, Content r.state.heap.mem b
  books : Books r.state.calls (owedOf r.live)

section Inv

variable {live l₁ l₂ : List ScratchBlock} {blocks : Uptr → Option Usize} {b c : ScratchBlock}
  {m m' : Mem}

theorem toNat_hdr_add {size : Usize} (h : size.toNat + 24 < 2 ^ 64) :
    (SIZEOF_SCRATCH_ALLOC_HDR + size).toNat = 24 + size.toNat := by
  have h24 : SIZEOF_SCRATCH_ALLOC_HDR.toNat = 24 := rfl
  rw [BitVec.toNat_add, h24, Nat.mod_eq_of_lt (by omega)]

theorem toNat_total (h : InUse blocks b) : b.total.toNat = 24 + b.size.toNat :=
  toNat_hdr_add h.exact

theorem data_sub (hdr : Uptr) : hdr + SIZEOF_SCRATCH_ALLOC_HDR - SIZEOF_SCRATCH_ALLOC_HDR = hdr :=
  BitVec.add_sub_cancel _ _

theorem data_inj (h : b.data = c.data) : b.hdr = c.hdr := by
  have hb := congrArg (· - SIZEOF_SCRATCH_ALLOC_HDR) h
  simp only [ScratchBlock.data, data_sub] at hb
  exact hb

theorem toNat_data (h : InUse blocks b) : b.data.toNat = b.hdr.toNat + 24 := by
  have hfits := h.fits
  have h24 : SIZEOF_SCRATCH_ALLOC_HDR.toNat = 24 := rfl
  unfold ScratchBlock.data
  rw [BitVec.toNat_add, h24, Nat.mod_eq_of_lt (by omega)]

theorem mem_hdrsOf {h : Uptr} : h ∈ hdrsOf live ↔ ∃ b ∈ live, b.hdr = h := List.mem_map

theorem hdr_mem (hb : b ∈ live) : b.hdr ∈ hdrsOf live := List.mem_map_of_mem hb

theorem hdrsOf_append : hdrsOf (l₁ ++ l₂) = hdrsOf l₁ ++ hdrsOf l₂ := List.map_append

theorem map_fst_owedOf : (owedOf live).map Prod.fst = hdrsOf live := by
  unfold owedOf
  rw [List.map_map]
  rfl

theorem spaced_hdrs (h : ∀ b ∈ live, ∀ c ∈ live, b.hdr ≠ c.hdr → BlocksApart b c) :
    Spaced (· ∈ hdrsOf live) := by
  intro x y hx hy hne
  obtain ⟨b, hb, rfl⟩ := mem_hdrsOf.mp hx
  obtain ⟨c, hc, rfl⟩ := mem_hdrsOf.mp hy
  have hapart := h b hb c hc hne
  unfold BlocksApart at hapart
  omega

/-- The size and the payload are behind the links. -/
theorem content_sameOff (h : ∀ b ∈ live, ∀ c ∈ live, b.hdr ≠ c.hdr → BlocksApart b c)
    (hb : b ∈ live) (hs : SameOff (LinkBytes (· ∈ hdrsOf live)) m m') (hcon : Content m b) :
    Content m' b := by
  have hoff : ∀ x, b.hdr.toNat + 16 ≤ x → x < b.hdr.toNat + 24 + b.size.toNat → m' x = m x := by
    intro x hlow hhigh
    refine hs x fun ⟨y, hy, hylow, hyhigh⟩ => ?_
    obtain ⟨c, hc, rfl⟩ := mem_hdrsOf.mp hy
    by_cases hne : b.hdr = c.hdr
    · rw [hne] at hlow
      omega
    · have hapart := h b hb c hc hne
      unfold BlocksApart at hapart
      omega
  refine ⟨?_, fun i hi => ?_⟩
  · rw [load64_congr fun k hk => hoff _ (by omega) (by omega)]
    exact hcon.size
  · rw [hoff _ (by omega) (by omega)]
    exact hcon.bytes i hi

/-- A block whose bytes are kept has its links, its size and its payload. -/
theorem kept_block {k : Usize} (hk : k.toNat = 24 + b.size.toNat)
    (h : ∀ x, InBlock b.hdr k x → m' x = m x) :
    linksAt m' b.hdr = linksAt m b.hdr ∧ (Content m b → Content m' b) := by
  have hin : ∀ x, b.hdr.toNat ≤ x → x < b.hdr.toNat + 24 + b.size.toNat → m' x = m x :=
    fun x hlow hhigh => h x ⟨hlow, by omega⟩
  refine ⟨?_, fun hcon => ⟨?_, fun i hi => ?_⟩⟩
  · unfold linksAt
    rw [load64_congr fun j hj => hin _ (by omega) (by omega),
      load64_congr fun j hj => hin _ (by omega) (by omega)]
  · rw [load64_congr fun j hj => hin _ (by omega) (by omega)]
    exact hcon.size
  · rw [hin _ (by omega) (by omega)]
    exact hcon.bytes i hi

end Inv

/-! ## 6. What the calls do -/

/-- The memory after `pushHdr`. -/
def pushMem (m : Mem) (p head : Uptr) : Mem :=
  if head = 0 then m else store64 (store64 m (p.toNat + 8) head) head.toNat p

section Calls

variable {ω : Type} {a : Allocator ω} {s : ScratchState ω} {t : HeapState ω} {p q : Uptr}

@[simp] theorem wp_inScratchHeap {α : Type} (x : Prog Fault (HeapState ω) α)
    (Q : α → ScratchState ω → Prop) :
    wp (inScratchHeap x) s Q ↔ wp x s.heap fun v heap => Q v { s with heap } :=
  wp_zoom _ _ _ _ _

@[simp] theorem wp_recordCall (c : BackingCall) (Q : Unit → ScratchState ω → Prop) :
    wp (recordCall c) s Q ↔ Q () { s with calls := s.calls ++ [c] } :=
  wp_modify _ _ _

@[simp] theorem wp_loadField (addr : Nat) (Q : U64 → ScratchState ω → Prop) :
    wp (loadField addr) s Q ↔ Q (load64 s.heap.mem addr) s := by
  unfold loadField
  rw [wp_bind, wp_get, wp_pure]

@[simp] theorem wp_storeField (addr : Nat) (w : U64) (Q : Unit → ScratchState ω → Prop) :
    wp (storeField addr w) s Q ↔
      Q () { s with heap := { s.heap with mem := store64 s.heap.mem addr w } } := by
  unfold storeField onBytes
  rw [wp_inScratchHeap, wp_zoom, wp_modify]

@[simp] theorem wp_setScratchHead (hdr : Uptr) (Q : Unit → ScratchState ω → Prop) :
    wp (setScratchHead hdr) s Q ↔ Q () { s with head := hdr } :=
  wp_modify _ _ _

theorem wp_hdrFromPtr (ptr : Uptr) (Q : Uptr → ScratchState ω → Prop) :
    wp (hdrFromPtr ptr) s Q ↔ ptr ≠ 0 ∧ Q (ptr - SIZEOF_SCRATCH_ALLOC_HDR) s := by
  unfold hdrFromPtr
  rw [wp_bind, wp_assert, wp_pure]

theorem wp_patchNeighbours (prev next x y : Uptr) (Q : Unit → ScratchState ω → Prop) :
    wp (patchNeighbours prev next x y) s Q ↔
      Q () { s with
        head := if prev = 0 then x else s.head
        heap := { s.heap with mem := patchMem s.heap.mem prev next x y } } := by
  unfold patchNeighbours patchMem
  by_cases hp : prev = 0
  · have hnp : ¬ prev ≠ 0 := fun hne => hne hp
    rw [if_neg hnp, wp_bind, wp_setScratchHead, if_neg hnp, if_pos hp]
    by_cases hn : next = 0
    · rw [if_neg (fun hne => hne hn), wp_pure, if_neg (fun hne => hne hn)]
    · rw [if_pos hn, wp_storeField, if_pos hn]
  · rw [if_pos hp, wp_bind, wp_storeField, if_pos hp, if_neg hp]
    by_cases hn : next = 0
    · rw [if_neg (fun hne => hne hn), wp_pure, if_neg (fun hne => hne hn)]
    · rw [if_pos hn, wp_storeField, if_pos hn]

/-- What `allocate` answers where the backing allocator answers `p`. -/
theorem wp_allocateFrom {n : Usize} (hn : 0 < n) {h : HeapState ω}
    (hrun : a.allocate n h = .ok (p, t)) (Q : Uptr → HeapState ω → Prop) :
    wp (allocateFrom a n) h Q ↔ p ≠ 0 ∧ Q p { t with mem := fill t.mem p.toNat n.toNat 0 } := by
  unfold allocateFrom onBytes
  rw [wp_bind, wp_assert, wp_bind, wp_of_eq hrun, wp_bind, wp_assertRelease, wp_bind, wp_zoom,
    wp_modify, wp_pure]
  exact ⟨fun h => h.2, fun h => ⟨hn, h⟩⟩

theorem wp_pushHdr (hdr : Uptr) (Q : Unit → ScratchState ω → Prop) :
    wp (pushHdr hdr) s Q ↔ Q () { s with
      head := hdr
      heap := { s.heap with mem := pushMem s.heap.mem hdr s.head } } := by
  unfold pushHdr pushMem
  rw [wp_bind, wp_get]
  by_cases hh : s.head = 0
  · rw [if_pos hh, wp_setScratchHead, if_pos hh]
  · rw [if_neg hh, wp_bind, wp_storeField, wp_bind, wp_loadField, wp_bind, wp_storeField,
      wp_setScratchHead, if_neg hh, load64_store64_same]

theorem wp_scratchAllocate {size : Usize} (hfit : size.toNat + 24 < 2 ^ 64)
    (hrun : a.allocate (SIZEOF_SCRATCH_ALLOC_HDR + size) s.heap = .ok (p, t))
    (Q : Uptr → ScratchState ω → Prop) :
    wp (scratchAllocate a size) s Q ↔ p ≠ 0 ∧ Q (p + SIZEOF_SCRATCH_ALLOC_HDR)
      { head := p
        heap := { t with mem := pushMem (store64 (fill t.mem p.toNat (24 + size.toNat) 0)
          (p.toNat + 16) size) p s.head }
        calls := s.calls ++ [.obtained p (SIZEOF_SCRATCH_ALLOC_HDR + size)] } := by
  have htotal := toNat_hdr_add hfit
  have hpos : 0 < SIZEOF_SCRATCH_ALLOC_HDR + size := by
    rw [BitVec.lt_def, htotal]
    exact Nat.lt_of_lt_of_le (by decide) (Nat.le_add_right 24 _)
  unfold scratchAllocate
  rw [wp_bind, wp_inScratchHeap, wp_allocateFrom hpos hrun, htotal]
  refine and_congr_right fun _ => ?_
  rw [wp_bind, wp_recordCall, wp_bind, wp_storeField, wp_bind, wp_pushHdr, wp_pure]

/-- The bytes behind the first `k` of `n`, zeroed. -/
def growMem (m : Mem) (q k n : Nat) : Mem := if k < n then fill m (q + k) (n - k) 0 else m

section Reallocate

variable {hdr : Uptr} {k n : Usize} {h : HeapState ω} (hrun : a.reallocate hdr k n h = .ok (q, t))
include hrun

theorem wp_reallocateFrom_null (hq : q = 0) (Q : Uptr → HeapState ω → Prop) :
    wp (reallocateFrom a hdr k n) h Q ↔ Q q t := by
  have hnq : ¬ (q ≠ 0 ∧ k < n) := fun h => h.1 hq
  unfold reallocateFrom
  rw [wp_bind, wp_of_eq hrun, wp_bind, if_neg hnq, wp_pure, wp_pure]

/-- What `reallocate` answers where the backing allocator answers `q`: what the block grew by is
    zeroed. -/
theorem wp_reallocateFrom (hq : q ≠ 0) (Q : Uptr → HeapState ω → Prop) :
    wp (reallocateFrom a hdr k n) h Q ↔
      Q q { t with mem := growMem t.mem q.toNat k.toNat n.toNat } := by
  unfold reallocateFrom onBytes growMem
  rw [wp_bind, wp_of_eq hrun, wp_bind]
  by_cases hlt : k < n
  · have hlt' : k.toNat < n.toNat := hlt
    rw [if_pos ⟨hq, hlt⟩, wp_zoom, wp_modify, wp_pure, if_pos hlt',
      BitVec.toNat_sub_of_le (BitVec.le_of_lt hlt)]
  · have hge : ¬ k.toNat < n.toNat := hlt
    rw [if_neg (fun h => hlt h.2), wp_pure, wp_pure, if_neg hge]

end Reallocate

section Linked

variable {ptr hdr prev next : Uptr} (hptr : ptr ≠ 0) (hhdr : ptr - SIZEOF_SCRATCH_ALLOC_HDR = hdr)
  (hprev : load64 s.heap.mem hdr.toNat = prev) (hnext : load64 s.heap.mem (hdr.toNat + 8) = next)
include hptr hhdr hprev hnext

theorem wp_scratchReallocate {oldSize newSize : Usize} (hold : oldSize.toNat + 24 < 2 ^ 64)
    (hnew : newSize.toNat + 24 < 2 ^ 64) (hsize : load64 s.heap.mem (hdr.toNat + 16) = oldSize)
    (hrun : a.reallocate hdr (SIZEOF_SCRATCH_ALLOC_HDR + oldSize)
      (SIZEOF_SCRATCH_ALLOC_HDR + newSize) s.heap = .ok (q, t))
    (Q : Uptr → ScratchState ω → Prop) :
    wp (scratchReallocate a ptr oldSize newSize) s Q ↔ q ≠ 0 ∧ Q (q + SIZEOF_SCRATCH_ALLOC_HDR)
      { head := if prev = 0 then q else s.head
        heap := { t with mem := patchMem (store64 (growMem t.mem q.toNat (24 + oldSize.toNat)
          (24 + newSize.toNat)) (q.toNat + 16) newSize) prev next q q }
        calls := s.calls ++ [.moved hdr (SIZEOF_SCRATCH_ALLOC_HDR + oldSize) q
          (SIZEOF_SCRATCH_ALLOC_HDR + newSize)] } := by
  unfold scratchReallocate
  rw [wp_bind, wp_hdrFromPtr, hhdr, wp_bind, wp_loadField, wp_bind, wp_assert, wp_bind,
    wp_loadField, wp_bind, wp_loadField, wp_bind, wp_inScratchHeap, and_iff_right hptr,
    and_iff_right hsize]
  by_cases hq : q = 0
  · rw [wp_reallocateFrom_null hrun hq, wp_bind, wp_recordCall, if_pos hq, wp_throw]
    exact ⟨False.elim, fun h => h.1 hq⟩
  · rw [wp_reallocateFrom hrun hq, wp_bind, wp_recordCall, if_neg hq, wp_bind, wp_storeField,
      wp_bind, wp_patchNeighbours, wp_pure, hprev, hnext, toNat_hdr_add hold, toNat_hdr_add hnew,
      and_iff_right hq]

theorem wp_scratchDeallocate {size : Usize} (hnull : hdr ≠ 0)
    (hsize : load64 s.heap.mem (hdr.toNat + 16) = size)
    (hrun : a.deallocate hdr (SIZEOF_SCRATCH_ALLOC_HDR + size) s.heap = .ok ((), t))
    (Q : Unit → ScratchState ω → Prop) :
    wp (scratchDeallocate a ptr size) s Q ↔ Q ()
      { head := if prev = 0 then next else s.head
        heap := { t with mem := patchMem t.mem prev next next prev }
        calls := s.calls ++ [.returned hdr (SIZEOF_SCRATCH_ALLOC_HDR + size)] } := by
  have hback : deallocateFrom a hdr (SIZEOF_SCRATCH_ALLOC_HDR + size) s.heap = .ok ((), t) := by
    unfold deallocateFrom
    rw [if_pos hnull]
    exact hrun
  unfold scratchDeallocate
  rw [wp_bind, wp_hdrFromPtr, hhdr, wp_bind, wp_loadField, wp_bind, wp_assert, wp_bind,
    wp_loadField, wp_bind, wp_loadField, wp_bind, wp_inScratchHeap, wp_of_eq hback, wp_bind,
    wp_recordCall, wp_patchNeighbours, hprev, hnext, and_iff_right hptr, and_iff_right hsize]

end Linked

end Calls

/-! ## 7. What the calls keep -/

section Lists

variable {l₁ l₂ : List ScratchBlock} {b c : ScratchBlock}

theorem hdrsOf_split : hdrsOf (l₁ ++ b :: l₂) = hdrsOf l₁ ++ b.hdr :: hdrsOf l₂ := List.map_append

theorem hdr_ne_of_split (hnd : (hdrsOf (l₁ ++ b :: l₂)).Nodup) (hc : c ∈ l₁ ++ l₂) :
    c.hdr ≠ b.hdr := by
  rw [hdrsOf_split] at hnd
  have hb := (List.nodup_cons.mp (List.nodup_middle.mp hnd)).1
  rw [← hdrsOf_append] at hb
  exact fun he => hb (he ▸ hdr_mem hc)

theorem mem_rest (hc : c ∈ l₁ ++ l₂) : c ∈ l₁ ++ b :: l₂ := by
  rcases List.mem_append.mp hc with hc | hc
  · exact List.mem_append_left _ hc
  · exact List.mem_append_right _ (List.mem_cons_of_mem _ hc)

theorem mem_split (hc : c ∈ l₁ ++ b :: l₂) : c = b ∨ c ∈ l₁ ++ l₂ := by
  rcases List.mem_append.mp hc with hc | hc
  · exact .inr (List.mem_append_left _ hc)
  · exact (List.mem_cons.mp hc).imp_right (List.mem_append_right _)

/-- A block apart from the others, anywhere in the list. -/
theorem apart_insert (h : ∀ c ∈ l₁ ++ l₂, ∀ d ∈ l₁ ++ l₂, c.hdr ≠ d.hdr → BlocksApart c d)
    (hb : ∀ c ∈ l₁ ++ l₂, BlocksApart b c) :
    ∀ c ∈ l₁ ++ b :: l₂, ∀ d ∈ l₁ ++ b :: l₂, c.hdr ≠ d.hdr → BlocksApart c d := by
  intro c hc d hd hne
  rcases mem_split hc with rfl | hcrest
  · rcases mem_split hd with rfl | hdrest
    · exact absurd rfl hne
    · exact hb d hdrest
  · rcases mem_split hd with rfl | hdrest
    · exact (hb c hcrest).symm
    · exact h c hcrest d hdrest hne

theorem editBlock_split (hnd : (hdrsOf (l₁ ++ b :: l₂)).Nodup)
    (f : ScratchBlock → ScratchBlock) :
    editBlock (l₁ ++ b :: l₂) b.data f = l₁ ++ f b :: l₂ := by
  have hrest : ∀ l : List ScratchBlock, (∀ c ∈ l, c ∈ l₁ ++ l₂) →
      l.map (fun c => if c.data = b.data then f c else c) = l := by
    intro l hl
    conv => rhs; rw [← List.map_id l]
    exact List.map_congr_left fun c hc =>
      if_neg fun he => hdr_ne_of_split hnd (hl c hc) (data_inj he)
  unfold editBlock
  rw [List.map_append, List.map_cons, if_pos rfl, hrest l₁ fun c hc => List.mem_append_left _ hc,
    hrest l₂ fun c hc => List.mem_append_right _ hc]

theorem filter_split (hnd : (hdrsOf (l₁ ++ b :: l₂)).Nodup) :
    (l₁ ++ b :: l₂).filter (fun c => c.data ≠ b.data) = l₁ ++ l₂ := by
  have hrest : ∀ l : List ScratchBlock, (∀ c ∈ l, c ∈ l₁ ++ l₂) →
      l.filter (fun c => c.data ≠ b.data) = l := by
    intro l hl
    refine List.filter_eq_self.mpr fun c hc => decide_eq_true fun he => ?_
    exact hdr_ne_of_split hnd (hl c hc) (data_inj he)
  rw [List.filter_append, List.filter_cons_of_neg (by simp),
    hrest l₁ fun c hc => List.mem_append_left _ hc,
    hrest l₂ fun c hc => List.mem_append_right _ hc]

end Lists

section Keeps

variable {ω : Type} {I : (Uptr → Option Usize) → ω → Prop} {s : ScratchState ω}
  {live l₁ l₂ : List ScratchBlock} {b : ScratchBlock} {t : HeapState ω} {p q : Uptr}

theorem sameOff_pushMem {S : Uptr → Prop} {m : Mem} {head : Uptr} (hp : S p)
    (hhead : ∀ d, ptrTo head = some d → S d) : SameOff (LinkBytes S) m (pushMem m p head) := by
  unfold pushMem
  split
  · exact sameOff_refl _ _
  · rename_i hne
    refine sameOff_trans (sameOff_store64 fun x hlow hhigh => ⟨p, hp, by omega, by omega⟩)
      (sameOff_store64 fun x hlow hhigh => ⟨head, hhead head (ptrTo_some hne), ?_, ?_⟩)
    · omega
    · omega

/-- The new header, before the head. -/
theorem linksOn_pushMem {S : Uptr → Prop} {m : Mem} {node : Uptr → Links Uptr} {head : Uptr}
    (h : LinksOn S m (update node p ⟨none, none⟩)) (hs : Spaced S) (hp : S p) (hnull : p ≠ 0)
    (hhead : ∀ d, ptrTo head = some d → S d) :
    LinksOn S (pushMem m p head) (linkFront node (ptrTo head) p) := by
  unfold pushMem linkFront
  by_cases hh : head = 0
  · rw [if_pos hh, hh, ptrTo_zero]
    exact h
  · rw [if_neg hh, ptrTo_some hh]
    have hone := linksOn_next h hs hp head
    rw [update_self, update_idem, ptrTo_some hh] at hone
    have htwo := linksOn_prev hone hs (hhead head (ptrTo_some hh)) p
    rw [ptrTo_some hnull] at htwo
    exact htwo

/-- A list read off the memory. -/
theorem chain_of_linksOn {m : Mem} {node : Uptr → Links Uptr} {head tail : Option Uptr}
    {l : List Uptr} (hd : DList node head tail l) (h : LinksOn (· ∈ l) m node) :
    DList (linksAt m) head l.getLast? l := by
  have hcongr := dlist_congr hd h
  rw [hcongr.tail] at hcongr
  exact hcongr

theorem scratchInv_allocate {size : Usize} (h : ScratchInv I ⟨s, live⟩)
    (hfit : size.toNat + 24 < 2 ^ 64) (hI : I t.blocks t.rest)
    (hkept : BlocksKept s.heap.blocks s.heap.mem t.mem)
    (hnew : NewBlock s.heap.blocks p (SIZEOF_SCRATCH_ALLOC_HDR + size))
    (hblocks : t.blocks = update s.heap.blocks p (some (SIZEOF_SCRATCH_ALLOC_HDR + size))) :
    ScratchInv I ⟨{
      head := p
      heap := { t with mem := pushMem (store64 (fill t.mem p.toNat (24 + size.toNat) 0)
        (p.toNat + 16) size) p s.head }
      calls := s.calls ++ [.obtained p (SIZEOF_SCRATCH_ALLOC_HDR + size)] },
      ⟨p, size, fun _ => 0⟩ :: live⟩ := by
  have htotal := toNat_hdr_add hfit
  have hfresh : ∀ b ∈ live, b.hdr ≠ p := fun b hb he => by
    have howned := (h.inUse b hb).owned
    rw [he] at howned
    exact Option.some_ne_none _ (howned.symm.trans hnew.fresh)
  have hp : p ∉ hdrsOf live := fun hm => by
    obtain ⟨b, hb, he⟩ := mem_hdrsOf.mp hm
    exact hfresh b hb he
  have hapart : ∀ b ∈ live, BlocksApart ⟨p, size, fun _ => 0⟩ b := fun b hb => by
    have hcase := hnew.apart b.hdr b.total (h.inUse b hb).owned
    have hb := toNat_total (h.inUse b hb)
    unfold BlocksApart
    dsimp only
    omega
  have hall := @apart_insert [] live ⟨p, size, fun _ => 0⟩ h.apart hapart
  -- the memory in which the new block is zeroed and has its size
  generalize hm : store64 (fill t.mem p.toNat (24 + size.toNat) 0) (p.toNat + 16) size = m
  have hold : ∀ b ∈ live, linksAt m b.hdr = linksAt s.heap.mem b.hdr ∧
      (Content s.heap.mem b → Content m b) := by
    intro b hb
    have hk := toNat_total (h.inUse b hb)
    refine kept_block hk fun x hx => ?_
    have hx' := hx
    unfold InBlock at hx'
    have ha := hapart b hb
    unfold BlocksApart at ha
    dsimp only at ha
    rw [← hm]
    unfold store64
    rw [if_neg (by omega), fill_out (by omega)]
    exact hkept b.hdr b.total (h.inUse b hb).owned x hx
  have hnode : LinksOn (· ∈ p :: hdrsOf live) m (update (linksAt s.heap.mem) p ⟨none, none⟩) := by
    intro x hx
    rcases List.mem_cons.mp hx with rfl | hx
    · rw [update_self, ← hm]
      unfold linksAt
      rw [load64_store64_ne _ _ (by omega), load64_store64_ne _ _ (by omega),
        load64_fill (by omega) (by omega), load64_fill (by omega) (by omega)]
      rfl
    · obtain ⟨b, hb, rfl⟩ := mem_hdrsOf.mp hx
      rw [update_of_ne (hfresh b hb)]
      exact (hold b hb).1
  have hhead : ∀ d, ptrTo s.head = some d → d ∈ p :: hdrsOf live := fun d hd =>
    List.mem_cons_of_mem _ (List.mem_of_head? (h.chain.head ▸ hd))
  have hsame : SameOff (LinkBytes (· ∈ p :: hdrsOf live)) m (pushMem m p s.head) :=
    sameOff_pushMem List.mem_cons_self hhead
  refine ⟨hI, ?_, fun b hb => ?_, hall, fun b hb => content_sameOff hall hb hsame ?_, ?_⟩
  · have hd := chain_of_linksOn (dlist_push h.chain hp)
      (linksOn_pushMem hnode (spaced_hdrs hall) List.mem_cons_self hnew.null hhead)
    rw [← ptrTo_some hnew.null] at hd
    exact hd
  · rcases List.mem_cons.mp hb with rfl | hb
    · exact ⟨by rw [hblocks, update_self]; rfl, hfit, hnew.null, by
        have hfits := hnew.fits
        dsimp only
        omega⟩
    · have hu := h.inUse b hb
      refine ⟨?_, hu.exact, hu.null, hu.fits⟩
      rw [hblocks, update_of_ne (hfresh b hb)]
      exact hu.owned
  · rcases List.mem_cons.mp hb with rfl | hb
    · refine ⟨by rw [← hm, load64_store64_same], fun i hi => ?_⟩
      dsimp only at hi ⊢
      rw [← hm]
      unfold store64
      rw [if_neg (by omega), fill_in (by omega)]
    · exact (hold b hb).2 (h.content b hb)
  · have howed : p ∉ (owedOf live).map Prod.fst := by rwa [map_fst_owedOf]
    exact .obtained h.books howed

/-- The neighbours of a block are headers of the rest. -/
theorem neighbours_rest (h : ScratchInv I ⟨s, l₁ ++ b :: l₂⟩) :
    (∀ d, (linksAt s.heap.mem b.hdr).prev = some d → d ∈ hdrsOf (l₁ ++ l₂)) ∧
      ∀ d, (linksAt s.heap.mem b.hdr).next = some d → d ∈ hdrsOf (l₁ ++ l₂) := by
  have hchain := h.chain
  rw [hdrsOf_split] at hchain
  obtain ⟨hprev, hnext⟩ := dlist_at hchain
  rw [hprev, hnext, hdrsOf_append]
  exact ⟨fun d hd => List.mem_append_left _ (List.mem_of_getLast? hd),
    fun d hd => List.mem_append_right _ (List.mem_of_head? hd)⟩

/-- The head after the block at the front has gone or moved. -/
theorem ptrTo_head (prev x : Uptr) :
    ptrTo (if prev = 0 then x else s.head) =
      if ptrTo prev = none then ptrTo x else ptrTo s.head := by
  by_cases hp : prev = 0
  · rw [if_pos hp, hp, if_pos ptrTo_zero]
  · rw [if_neg hp, ptrTo_some hp, if_neg (Option.some_ne_none prev)]

/-- A block that moved has its links; its payload is the old one as far as it goes, and then
    zero. -/
theorem grown_block {m₀ m : Mem} {hdr : Uptr} {size : Usize} {old : Nat}
    (hmoved : ∀ i, i < min (24 + old) (24 + size.toNat) →
      m (q.toNat + i) = m₀ (hdr.toNat + i)) :
    linksAt (store64 (growMem m q.toNat (24 + old) (24 + size.toNat)) (q.toNat + 16) size) q =
        linksAt m₀ hdr ∧
      ∀ i, i < size.toNat →
        store64 (growMem m q.toNat (24 + old) (24 + size.toNat)) (q.toNat + 16) size
          (q.toNat + 24 + i) = if i < old then m₀ (hdr.toNat + 24 + i) else 0 := by
  have hkeep : ∀ i, i < min (24 + old) (24 + size.toNat) →
      growMem m q.toNat (24 + old) (24 + size.toNat) (q.toNat + i) = m₀ (hdr.toNat + i) := by
    intro i hi
    rw [← hmoved i hi]
    unfold growMem
    split
    · exact fill_out (by omega)
    · rfl
  refine ⟨?_, fun i hi => ?_⟩
  · unfold linksAt
    rw [load64_store64_ne _ _ (by omega), load64_store64_ne _ _ (by omega)]
    have hprev : load64 (growMem m q.toNat (24 + old) (24 + size.toNat)) q.toNat =
        load64 m₀ hdr.toNat := Lib.load64_moved fun k hk => hkeep k (by omega)
    have hnext : load64 (growMem m q.toNat (24 + old) (24 + size.toNat)) (q.toNat + 8) =
        load64 m₀ (hdr.toNat + 8) := Lib.load64_moved fun k hk => by
      rw [Nat.add_assoc, hkeep (8 + k) (by omega), Nat.add_assoc]
    rw [hprev, hnext]
  · unfold store64
    rw [if_neg (by omega)]
    by_cases hlt : i < old
    · rw [if_pos hlt, Nat.add_assoc, hkeep (24 + i) (by omega), Nat.add_assoc]
    · rw [if_neg hlt]
      unfold growMem
      rw [if_pos (by omega), fill_in (by omega)]

theorem scratchInv_reallocate {newSize : Usize} {prev next : Uptr}
    (h : ScratchInv I ⟨s, l₁ ++ b :: l₂⟩) (hfit : newSize.toNat + 24 < 2 ^ 64)
    (hprev : load64 s.heap.mem b.hdr.toNat = prev)
    (hnext : load64 s.heap.mem (b.hdr.toNat + 8) = next) (hI : I t.blocks t.rest)
    (hkept : BlocksKept (update s.heap.blocks b.hdr none) s.heap.mem t.mem)
    (hnew : NewBlock (update s.heap.blocks b.hdr none) q (SIZEOF_SCRATCH_ALLOC_HDR + newSize))
    (hblocks : t.blocks = update (update s.heap.blocks b.hdr none) q
      (some (SIZEOF_SCRATCH_ALLOC_HDR + newSize)))
    (hmoved : ∀ i, i < min b.total.toNat (SIZEOF_SCRATCH_ALLOC_HDR + newSize).toNat →
      t.mem (q.toNat + i) = s.heap.mem (b.hdr.toNat + i)) :
    ScratchInv I ⟨{
      head := if prev = 0 then q else s.head
      heap := { t with mem := patchMem (store64 (growMem t.mem q.toNat (24 + b.size.toNat)
        (24 + newSize.toNat)) (q.toNat + 16) newSize) prev next q q }
      calls := s.calls ++ [.moved b.hdr b.total q (SIZEOF_SCRATCH_ALLOC_HDR + newSize)] },
      l₁ ++ ⟨q, newSize, fun i => if i < b.size.toNat then b.bytes i else 0⟩ :: l₂⟩ := by
  have htotal := toNat_hdr_add hfit
  have hold := toNat_total (h.inUse b (List.mem_append_right _ List.mem_cons_self))
  have hne : ∀ c ∈ l₁ ++ l₂, c.hdr ≠ b.hdr := fun c hc => hdr_ne_of_split h.chain.nodup hc
  have howned : ∀ c ∈ l₁ ++ l₂, update s.heap.blocks b.hdr none c.hdr = some c.total := by
    intro c hc
    rw [update_of_ne (hne c hc)]
    exact (h.inUse c (mem_rest hc)).owned
  have hfresh : ∀ c ∈ l₁ ++ l₂, c.hdr ≠ q := fun c hc he => by
    have hc := howned c hc
    rw [he] at hc
    exact Option.some_ne_none _ (hc.symm.trans hnew.fresh)
  have hq : q ∉ hdrsOf (l₁ ++ l₂) := fun hm => by
    obtain ⟨c, hc, he⟩ := mem_hdrsOf.mp hm
    exact hfresh c hc he
  generalize hb' : (⟨q, newSize, fun i => if i < b.size.toNat then b.bytes i else 0⟩ :
    ScratchBlock) = b'
  have hhdr : b'.hdr = q := hb' ▸ rfl
  have hsize : b'.size = newSize := hb' ▸ rfl
  have hbytes : ∀ i, b'.bytes i = if i < b.size.toNat then b.bytes i else 0 := fun i => hb' ▸ rfl
  have hapart : ∀ c ∈ l₁ ++ l₂, BlocksApart b' c := fun c hc => by
    have hcase := hnew.apart c.hdr c.total (howned c hc)
    have hc := toNat_total (h.inUse c (mem_rest hc))
    unfold BlocksApart
    rw [hhdr, hsize]
    omega
  have hall := @apart_insert l₁ l₂ b' (fun c hc d hd =>
    h.apart c (mem_rest hc) d (mem_rest hd)) hapart
  -- the memory in which the block has moved and has its new size
  generalize hm : store64 (growMem t.mem q.toNat (24 + b.size.toNat) (24 + newSize.toNat))
    (q.toNat + 16) newSize = m
  have hrest : ∀ c ∈ l₁ ++ l₂, linksAt m c.hdr = linksAt s.heap.mem c.hdr ∧
      (Content s.heap.mem c → Content m c) := by
    intro c hc
    refine kept_block (toNat_total (h.inUse c (mem_rest hc))) fun x hx => ?_
    have hx' := hx
    have hk := toNat_total (h.inUse c (mem_rest hc))
    unfold InBlock at hx'
    have ha := hapart c hc
    unfold BlocksApart at ha
    rw [hhdr, hsize] at ha
    rw [← hm, ← hkept c.hdr c.total (howned c hc) x hx]
    unfold store64 growMem
    rw [if_neg (by omega)]
    split
    · exact fill_out (by omega)
    · rfl
  obtain ⟨hlinks, hpayload⟩ := @grown_block q s.heap.mem t.mem b.hdr newSize b.size.toNat
    fun i hi => hmoved i (by rw [hold, htotal]; exact hi)
  rw [hm] at hlinks hpayload
  have hS : hdrsOf (l₁ ++ b' :: l₂) = hdrsOf l₁ ++ q :: hdrsOf l₂ := by rw [hdrsOf_split, hhdr]
  have hin : ∀ x, x ∈ hdrsOf (l₁ ++ l₂) → x ∈ hdrsOf (l₁ ++ b' :: l₂) := fun x hx => by
    obtain ⟨c, hc, rfl⟩ := mem_hdrsOf.mp hx
    exact hdr_mem (mem_rest hc)
  have hnode : LinksOn (· ∈ hdrsOf (l₁ ++ b' :: l₂)) m
      (update (linksAt s.heap.mem) q (linksAt s.heap.mem b.hdr)) := by
    intro x hx
    obtain ⟨c, hc, rfl⟩ := mem_hdrsOf.mp hx
    rcases mem_split hc with rfl | hc
    · rw [hhdr, update_self, hlinks]
    · rw [update_of_ne (hfresh c hc)]
      exact (hrest c hc).1
  subst hprev hnext
  obtain ⟨hp, hn⟩ := neighbours_rest h
  have hp' : ∀ d, ptrTo (load64 s.heap.mem b.hdr.toNat) = some d →
      d ∈ hdrsOf (l₁ ++ b' :: l₂) := fun d hd => hin d (hp d hd)
  have hn' : ∀ d, ptrTo (load64 s.heap.mem (b.hdr.toNat + 8)) = some d →
      d ∈ hdrsOf (l₁ ++ b' :: l₂) := fun d hd => hin d (hn d hd)
  have hsame : SameOff (LinkBytes (· ∈ hdrsOf (l₁ ++ b' :: l₂))) m (patchMem m
      (load64 s.heap.mem b.hdr.toNat) (load64 s.heap.mem (b.hdr.toNat + 8)) q q) :=
    sameOff_patchMem hp' hn'
  refine ⟨hI, ?_, fun c hc => ?_, hall, fun c hc => content_sameOff hall hc hsame ?_, ?_⟩
  · have hchain := h.chain
    rw [hdrsOf_split] at hchain
    have hmove := dlist_moved hchain (hdrsOf_append ▸ hq)
    have hlinked := linksOn_patchMem (a := q) (b := q) hnode (spaced_hdrs hall) hp' hn'
    rw [ptrTo_some hnew.null, hS] at hlinked
    have hd := chain_of_linksOn hmove hlinked
    rw [hS]
    dsimp only
    rw [ptrTo_head, ptrTo_some hnew.null]
    exact hd
  · rcases mem_split hc with rfl | hc
    · have hfits := hnew.fits
      refine ⟨?_, hsize ▸ hfit, hhdr ▸ hnew.null, by rw [hhdr, hsize]; omega⟩
      rw [hblocks, hhdr, update_self, ScratchBlock.total, hsize]
    · have hu := h.inUse c (mem_rest hc)
      refine ⟨?_, hu.exact, hu.null, hu.fits⟩
      rw [hblocks, update_of_ne (hfresh c hc)]
      exact howned c hc
  · rcases mem_split hc with rfl | hc
    · refine ⟨by rw [hhdr, hsize, ← hm, load64_store64_same], fun i hi => ?_⟩
      rw [hsize] at hi
      rw [hhdr, hbytes, hpayload i hi]
      split
      · rename_i hlt
        exact (h.content b (List.mem_append_right _ List.mem_cons_self)).bytes i hlt
      · rfl
    · exact (hrest c hc).2 (h.content c (mem_rest hc))
  · have hbooks := h.books
    have hqs : q ∉ (owedOf l₁ ++ owedOf l₂).map Prod.fst := by
      rw [List.map_append, map_fst_owedOf, map_fst_owedOf, ← hdrsOf_append]
      exact hq
    unfold owedOf at hbooks hqs ⊢
    rw [List.map_append, List.map_cons] at hbooks ⊢
    have htot : b'.total = SIZEOF_SCRATCH_ALLOC_HDR + newSize := by
      rw [ScratchBlock.total, hsize]
    rw [hhdr, htot]
    exact .moved hbooks hqs

theorem scratchInv_deallocate {prev next : Uptr} (h : ScratchInv I ⟨s, l₁ ++ b :: l₂⟩)
    (hprev : load64 s.heap.mem b.hdr.toNat = prev)
    (hnext : load64 s.heap.mem (b.hdr.toNat + 8) = next) (hI : I t.blocks t.rest)
    (hkept : BlocksKept (update s.heap.blocks b.hdr none) s.heap.mem t.mem)
    (hblocks : t.blocks = update s.heap.blocks b.hdr none) :
    ScratchInv I ⟨{
      head := if prev = 0 then next else s.head
      heap := { t with mem := patchMem t.mem prev next next prev }
      calls := s.calls ++ [.returned b.hdr b.total] }, l₁ ++ l₂⟩ := by
  have howned : ∀ c ∈ l₁ ++ l₂, update s.heap.blocks b.hdr none c.hdr = some c.total := by
    intro c hc
    rw [update_of_ne (hdr_ne_of_split h.chain.nodup hc)]
    exact (h.inUse c (mem_rest hc)).owned
  have hall : ∀ c ∈ l₁ ++ l₂, ∀ d ∈ l₁ ++ l₂, c.hdr ≠ d.hdr → BlocksApart c d := fun c hc d hd =>
    h.apart c (mem_rest hc) d (mem_rest hd)
  have hrest : ∀ c ∈ l₁ ++ l₂, linksAt t.mem c.hdr = linksAt s.heap.mem c.hdr ∧
      (Content s.heap.mem c → Content t.mem c) := fun c hc =>
    kept_block (toNat_total (h.inUse c (mem_rest hc))) (hkept c.hdr c.total (howned c hc))
  have hnode : LinksOn (· ∈ hdrsOf (l₁ ++ l₂)) t.mem (linksAt s.heap.mem) := fun x hx => by
    obtain ⟨c, hc, rfl⟩ := mem_hdrsOf.mp hx
    exact (hrest c hc).1
  subst hprev hnext
  obtain ⟨hp, hn⟩ := neighbours_rest h
  refine ⟨hI, ?_, fun c hc => ?_, hall, fun c hc => ?_, ?_⟩
  · have hchain := h.chain
    rw [hdrsOf_split] at hchain
    have hlinked := linksOn_patchMem (a := load64 s.heap.mem (b.hdr.toNat + 8))
      (b := load64 s.heap.mem b.hdr.toNat) hnode (spaced_hdrs hall) hp hn
    have hbypass := dlist_bypass hchain
    rw [bypass_eq_patched, ← hdrsOf_append] at hbypass
    have hd := chain_of_linksOn hbypass hlinked
    dsimp only
    rw [ptrTo_head]
    exact hd
  · have hu := h.inUse c (mem_rest hc)
    refine ⟨?_, hu.exact, hu.null, hu.fits⟩
    rw [hblocks]
    exact howned c hc
  · exact content_sameOff hall hc (sameOff_patchMem hp hn)
      ((hrest c hc).2 (h.content c (mem_rest hc)))
  · have hbooks := h.books
    unfold owedOf at hbooks ⊢
    rw [List.map_append] at hbooks ⊢
    exact .returned hbooks

theorem scratchInv_write {i : Nat} {byte : U8} (h : ScratchInv I ⟨s, l₁ ++ b :: l₂⟩)
    (hi : i < b.size.toNat) :
    ScratchInv I ⟨{ s with heap := { s.heap with
      mem := setByte s.heap.mem (b.data.toNat + i) byte } },
      l₁ ++ { b with bytes := update b.bytes i byte } :: l₂⟩ := by
  have hb : b ∈ l₁ ++ b :: l₂ := List.mem_append_right _ List.mem_cons_self
  have hdata := toNat_data (h.inUse b hb)
  have hapart : ∀ c ∈ l₁ ++ l₂, BlocksApart b c := fun c hc =>
    h.apart b hb c (mem_rest hc) (hdr_ne_of_split h.chain.nodup hc).symm
  -- no other block has the byte, and in its own it is behind the header
  have hrest : ∀ c ∈ l₁ ++ l₂,
      linksAt (setByte s.heap.mem (b.data.toNat + i) byte) c.hdr = linksAt s.heap.mem c.hdr ∧
      (Content s.heap.mem c → Content (setByte s.heap.mem (b.data.toNat + i) byte) c) := by
    intro c hc
    refine kept_block (toNat_total (h.inUse c (mem_rest hc))) fun x hx => setByte_ne ?_
    have hk := toNat_total (h.inUse c (mem_rest hc))
    have ha := hapart c hc
    unfold BlocksApart at ha
    unfold InBlock at hx
    omega
  have hself : linksAt (setByte s.heap.mem (b.data.toNat + i) byte) b.hdr =
      linksAt s.heap.mem b.hdr := by
    unfold linksAt
    rw [load64_congr fun k hk => setByte_ne (by omega),
      load64_congr fun k hk => setByte_ne (by omega)]
  have hlist : hdrsOf (l₁ ++ { b with bytes := update b.bytes i byte } :: l₂) =
      hdrsOf (l₁ ++ b :: l₂) := by
    rw [hdrsOf_split, hdrsOf_split]
  have howed : owedOf (l₁ ++ { b with bytes := update b.bytes i byte } :: l₂) =
      owedOf (l₁ ++ b :: l₂) := by
    unfold owedOf
    rw [List.map_append, List.map_append]
    rfl
  refine ⟨h.backing, ?_, fun c hc => ?_, apart_insert (fun c hc d hd =>
    h.apart c (mem_rest hc) d (mem_rest hd)) hapart, fun c hc => ?_, howed ▸ h.books⟩
  · dsimp only
    rw [hlist]
    refine dlist_congr h.chain fun x hx => ?_
    obtain ⟨c, hc, rfl⟩ := mem_hdrsOf.mp hx
    rcases mem_split hc with rfl | hc
    · exact hself
    · exact (hrest c hc).1
  · rcases mem_split hc with rfl | hc
    · have hu := h.inUse b hb
      exact ⟨hu.owned, hu.exact, hu.null, hu.fits⟩
    · exact h.inUse c (mem_rest hc)
  · rcases mem_split hc with rfl | hc
    · have hcon := h.content b hb
      refine ⟨?_, fun j hj => ?_⟩
      · show load64 (setByte s.heap.mem (b.data.toNat + i) byte) (b.hdr.toNat + 16) = b.size
        rw [load64_congr fun k hk => setByte_ne (by omega)]
        exact hcon.size
      · show setByte s.heap.mem (b.data.toNat + i) byte (b.hdr.toNat + 24 + j) =
          update b.bytes i byte j
        by_cases hji : j = i
        · rw [hji, hdata, setByte_same, update_self]
        · rw [setByte_ne (by omega), update_of_ne hji]
          exact hcon.bytes j hj
    · exact (hrest c hc).2 (h.content c (mem_rest hc))

end Keeps

/-! ## 8. Runs -/

section Runs

variable {ω : Type} {a : Allocator ω} {I : (Uptr → Option Usize) → ω → Prop} {r r' : ScratchRun ω}
  {call : ScratchCall}

theorem scratchStep_of_wp {P : ScratchRun ω → Prop}
    (h : wp (call.run a) r.state fun p s => P ⟨s, call.record r.live p⟩) :
    ∃ r', scratchStep a r call = some r' ∧ P r' := by
  obtain ⟨p, s, hrun, hp⟩ := h
  refine ⟨⟨s, call.record r.live p⟩, ?_, hp⟩
  unfold scratchStep
  rw [hrun]

theorem scratchStep_none (h : ¬ wp (call.run a) r.state fun _ _ => True) :
    scratchStep a r call = none := by
  unfold scratchStep
  split
  · rename_i p s hrun
    exact absurd ⟨p, s, hrun, True.intro⟩ h
  · rfl

theorem hdr_pos {size : Usize} (h : size.toNat + 24 < 2 ^ 64) :
    0 < SIZEOF_SCRATCH_ALLOC_HDR + size := by
  rw [BitVec.lt_def, toNat_hdr_add h]
  exact Nat.lt_of_lt_of_le (by decide) (Nat.le_add_right 24 _)

theorem data_ne_zero {blocks : Uptr → Option Usize} {b : ScratchBlock} (h : InUse blocks b) :
    b.data ≠ 0 := by
  intro h0
  have hd := toNat_data h
  rw [h0] at hd
  have hz : (0 : Uptr).toNat = 0 := rfl
  omega

/-- **A call on blocks the client has** goes through and keeps the invariant, unless the backing
    allocator has no block. -/
theorem scratchStep_cases (hc : a.Meets I) (h : ScratchInv I r) (hl : ScratchLegal r call)
    (hf : ScratchFits call) :
    (∃ r', scratchStep a r call = some r' ∧ ScratchInv I r') ∨
      (scratchStep a r call = none ∧ ¬ BackingGrants a r call) := by
  obtain ⟨s, live⟩ := r
  cases call with
  | allocate size =>
      obtain ⟨p, t, hrun, hI, hkept, ⟨rfl, -⟩ | ⟨hnew, hblocks⟩⟩ :=
        hc.allocate (SIZEOF_SCRATCH_ALLOC_HDR + size) s.heap (hdr_pos hf) h.backing
      · refine .inr ⟨scratchStep_none fun hw => ?_, fun hw => ?_⟩
        · exact ((wp_scratchAllocate hf hrun _).mp hw).1 rfl
        · exact (wp_of_eq hrun).mp hw rfl
      · refine .inl (scratchStep_of_wp ((wp_scratchAllocate hf hrun _).mpr ⟨hnew.null, ?_⟩))
        have hinv := scratchInv_allocate h hf hI hkept hnew hblocks
        unfold ScratchCall.record
        rw [data_sub]
        exact hinv
  | reallocate ptr oldSize newSize =>
      obtain ⟨b, hb, rfl, rfl⟩ := hl
      have hu := h.inUse b hb
      obtain ⟨l₁, l₂, rfl⟩ := List.append_of_mem hb
      obtain ⟨q, t, hrun, hI, hkept, hcase⟩ :=
        hc.reallocate b.hdr b.total (SIZEOF_SCRATCH_ALLOC_HDR + newSize) s.heap (hdr_pos hf)
          h.backing hu.owned
      have hwp := wp_scratchReallocate (data_ne_zero hu) (data_sub b.hdr) rfl rfl hu.exact hf
        (h.content b hb).size hrun
      obtain ⟨rfl, -⟩ | ⟨hnew, hblocks, hmoved⟩ := hcase
      · refine .inr ⟨scratchStep_none fun hw => ((hwp _).mp hw).1 rfl, fun hw => ?_⟩
        have hgrant : wp (a.reallocate (b.hdr + SIZEOF_SCRATCH_ALLOC_HDR -
          SIZEOF_SCRATCH_ALLOC_HDR) b.total (SIZEOF_SCRATCH_ALLOC_HDR + newSize)) s.heap
            fun p _ => p ≠ 0 := hw
        rw [data_sub] at hgrant
        exact (wp_of_eq hrun).mp hgrant rfl
      · refine .inl (scratchStep_of_wp ((hwp _).mpr ⟨hnew.null, ?_⟩))
        have hinv := scratchInv_reallocate h hf rfl rfl hI hkept hnew hblocks hmoved
        show ScratchInv I ⟨_, editBlock (l₁ ++ b :: l₂) b.data _⟩
        rw [editBlock_split h.chain.nodup, data_sub]
        exact hinv
  | deallocate ptr size =>
      obtain ⟨b, hb, rfl, rfl⟩ := hl
      have hu := h.inUse b hb
      obtain ⟨l₁, l₂, rfl⟩ := List.append_of_mem hb
      obtain ⟨u, t, hrun, hI, hkept, hblocks⟩ :=
        hc.deallocate b.hdr b.total s.heap h.backing hu.owned
      refine .inl (scratchStep_of_wp ?_)
      unfold ScratchCall.run
      rw [wp_bind, wp_scratchDeallocate (data_ne_zero hu) (data_sub b.hdr) rfl rfl hu.null
        (h.content b hb).size hrun, wp_pure]
      show ScratchInv I ⟨_, (l₁ ++ b :: l₂).filter fun c => c.data ≠ b.data⟩
      rw [filter_split h.chain.nodup]
      exact scratchInv_deallocate h rfl rfl hI hkept hblocks
  | write ptr i byte =>
      obtain ⟨b, hb, rfl, hi⟩ := hl
      obtain ⟨l₁, l₂, rfl⟩ := List.append_of_mem hb
      refine .inl (scratchStep_of_wp ?_)
      unfold ScratchCall.run onBytes
      rw [wp_bind, wp_inScratchHeap, wp_zoom, wp_modify, wp_pure]
      show ScratchInv I ⟨_, editBlock (l₁ ++ b :: l₂) b.data _⟩
      rw [editBlock_split h.chain.nodup]
      exact scratchInv_write h hi

/-- What the loop of `scratch_deinit` needs of the blocks still to come. -/
structure DeinitInv (I : (Uptr → Option Usize) → ω → Prop) (s : ScratchState ω) (current : Uptr)
    (live : List ScratchBlock) : Prop where
  backing : I s.heap.blocks s.heap.rest
  follows : Lib.Follows (linksAt s.heap.mem) (ptrTo current) (hdrsOf live)
  nodup : (hdrsOf live).Nodup
  inUse : ∀ b ∈ live, InUse s.heap.blocks b
  content : ∀ b ∈ live, Content s.heap.mem b
  books : Books s.calls (owedOf live)

theorem wp_scratchDeinitLoop (hc : a.Meets I) {s : ScratchState ω} {current : Uptr}
    {live : List ScratchBlock} {fuel : Nat} (h : DeinitInv I s current live)
    (hfuel : live.length ≤ fuel) :
    wp (scratchDeinitLoop a fuel current) s fun _ s' => Books s'.calls [] := by
  induction live generalizing s current fuel with
  | nil =>
      have hzero : current = 0 := by
        refine Classical.byContradiction fun hne => ?_
        have hnone : ptrTo current = none := h.follows
        rw [ptrTo_some hne] at hnone
        cases hnone
      cases fuel with
      | zero => exact (wp_pure _ _ _).mpr h.books
      | succ fuel =>
          rw [scratchDeinitLoop, if_pos hzero, wp_pure]
          exact h.books
  | cons b live ih =>
      obtain ⟨fuel, rfl⟩ : ∃ k, fuel = k + 1 := ⟨fuel - 1, by rw [List.length_cons] at hfuel; omega⟩
      obtain ⟨hcurrent, hfollows⟩ := h.follows
      obtain ⟨rfl, hne⟩ := ptrTo_eq_some.mp hcurrent
      have hb : b ∈ b :: live := List.mem_cons_self
      have hu := h.inUse b hb
      obtain ⟨u, t, hrun, hI, hkept, hblocks⟩ :=
        hc.deallocate b.hdr b.total s.heap h.backing hu.owned
      have hback : deallocateFrom a b.hdr b.total s.heap = .ok (u, t) := by
        unfold deallocateFrom
        rw [if_pos hne]
        exact hrun
      obtain ⟨hnot, hnodup⟩ := List.nodup_cons.mp h.nodup
      have howned : ∀ c ∈ live, t.blocks c.hdr = some c.total := fun c hcm => by
        have hneq : c.hdr ≠ b.hdr := fun he => hnot (he ▸ hdr_mem hcm)
        rw [hblocks, update_of_ne hneq]
        exact (h.inUse c (List.mem_cons_of_mem _ hcm)).owned
      have hrest : ∀ c ∈ live, linksAt t.mem c.hdr = linksAt s.heap.mem c.hdr ∧
          (Content s.heap.mem c → Content t.mem c) := fun c hcm =>
        kept_block (toNat_total (h.inUse c (List.mem_cons_of_mem _ hcm)))
          (hkept c.hdr c.total (hblocks ▸ howned c hcm))
      have hbooks : Books (s.calls ++ [.returned b.hdr b.total]) (owedOf live) :=
        @Books.returned _ [] _ _ _ h.books
      rw [scratchDeinitLoop, if_neg hne, wp_bind, wp_loadField, wp_bind, wp_loadField,
        (h.content b hb).size, wp_bind, wp_inScratchHeap]
      refine (wp_of_eq hback).mpr ?_
      rw [wp_bind, wp_recordCall]
      refine ih ⟨hI, ?_, hnodup, fun c hcm => ?_, fun c hcm => ?_, hbooks⟩
        (Nat.le_of_succ_le_succ hfuel)
      · refine follows_congr hfollows fun x hx => ?_
        obtain ⟨c, hcm, rfl⟩ := mem_hdrsOf.mp hx
        exact (hrest c hcm).1
      · have huc := h.inUse c (List.mem_cons_of_mem _ hcm)
        exact ⟨howned c hcm, huc.exact, huc.null, huc.fits⟩
      · exact (hrest c hcm).2 (h.content c (List.mem_cons_of_mem _ hcm))

end Runs

/-- What a run leaves behind: the list of the scratch allocator is the list of the client's
    blocks, read in both directions; their sizes and bytes are the ones the client expects; and the
    backing allocator is owed each of them, with its current size. -/
structure ScratchIs {ω : Type} (r : ScratchRun ω) : Prop where
  chain : DList (linksAt r.state.heap.mem) (ptrTo r.state.head) (hdrsOf r.live).getLast?
    (hdrsOf r.live)
  apart : ∀ b ∈ r.live, ∀ c ∈ r.live, b.hdr ≠ c.hdr → BlocksApart b c
  content : ∀ b ∈ r.live, Content r.state.heap.mem b
  books : Books r.state.calls (owedOf r.live)

/-- **The scratch allocator keeps its blocks**: after every run of calls whose sizes leave room for
    a header the list is the client's, the bytes are the ones written, the next call goes through
    unless the backing allocator has no block, and `scratch_deinit` gives every block back, once
    and with its current size. -/
theorem scratch_keeps {ω : Type} {a : Allocator ω} {I : (Uptr → Option Usize) → ω → Prop}
    (hc : a.Meets I) {s₀ s : ScratchState ω} (hI : I s₀.heap.blocks s₀.heap.rest)
    (hnew : s₀.calls = []) (hinit : scratchInit s₀ = .ok ((), s)) {calls : List ScratchCall}
    {r : ScratchRun ω}
    (hrun : Runs (scratchStep a) (fun r call => ScratchLegal r call ∧ ScratchFits call) ⟨s, []⟩
      calls r) :
    ScratchIs r ∧
      (∀ call, ScratchLegal r call → ScratchFits call → BackingGrants a r call →
        ∃ r', scratchStep a r call = some r') ∧
      ∀ fuel, r.live.length ≤ fuel →
        wp (scratchDeinit a fuel) r.state fun _ s => s.head = 0 ∧ Books s.calls [] := by
  have hboot : ScratchInv I ⟨s, []⟩ := by
    cases hinit
    refine ⟨hI, dlist_nil, fun b hb => absurd hb List.not_mem_nil,
      fun b hb => absurd hb List.not_mem_nil, fun b hb => absurd hb List.not_mem_nil, ?_⟩
    show Books s₀.calls []
    rw [hnew]
    exact .start
  have h : ScratchInv I r := by
    refine runs_inv (ScratchInv I) hboot (fun t call t' hi hp hs => ?_) hrun
    obtain ⟨r', hs', hi'⟩ | ⟨hnone, -⟩ := scratchStep_cases hc hi hp.1 hp.2
    · rw [hs] at hs'
      cases hs'
      exact hi'
    · rw [hs] at hnone
      cases hnone
  refine ⟨⟨h.chain, h.apart, h.content, h.books⟩, fun call hl hf hg => ?_, fun fuel hfuel => ?_⟩
  · obtain ⟨r', hs, -⟩ | ⟨-, hrefused⟩ := scratchStep_cases hc h hl hf
    · exact ⟨r', hs⟩
    · exact absurd hg hrefused
  · unfold scratchDeinit
    rw [wp_bind, wp_get, wp_bind]
    refine wp_mono (wp_scratchDeinitLoop hc ⟨h.backing, ?_, h.chain.nodup, h.inUse, h.content,
      h.books⟩ hfuel) fun _ s hbooks => ?_
    · rw [h.chain.head]
      exact strung_follows h.chain.strung
    · rw [wp_setScratchHead]
      exact ⟨rfl, hbooks⟩

/-! ## 9. A backing allocator -/

/-- Blocks one behind the other, up to an end; a reallocation always moves. `rest` is where the next
    block goes. -/
def bumpAllocator : Allocator Nat where
  allocate n := fun s =>
    if s.rest + n.toNat ≤ 2 ^ 32 then
      .ok (BitVec.ofNat 64 s.rest, { s with
        blocks := update s.blocks (BitVec.ofNat 64 s.rest) (some n)
        rest := s.rest + n.toNat })
    else .ok (0, s)
  reallocate b k n := fun s =>
    if s.rest + n.toNat ≤ 2 ^ 32 then
      .ok (BitVec.ofNat 64 s.rest, {
        mem := moved s.mem s.rest b.toNat (min k.toNat n.toNat)
        blocks := update (update s.blocks b none) (BitVec.ofNat 64 s.rest) (some n)
        rest := s.rest + n.toNat })
    else .ok (0, s)
  deallocate b _ := fun s => .ok ((), { s with blocks := update s.blocks b none })

/-- The blocks are before the next one. -/
def BumpInv (blocks : Uptr → Option Usize) (next : Nat) : Prop :=
  0 < next ∧ ∀ b k, blocks b = some k → b.toNat + k.toNat ≤ next ∧ 0 < k.toNat

section Bump

variable {blocks : Uptr → Option Usize} {next : Nat} {n : Usize}

theorem bumpInv_none (h : BumpInv blocks next) (b : Uptr) :
    BumpInv (update blocks b none) next := by
  refine ⟨h.1, fun c k hc => ?_⟩
  by_cases he : c = b
  · rw [he, update_self] at hc
    cases hc
  · rw [update_of_ne he] at hc
    exact h.2 c k hc

theorem bumpInv_some (h : BumpInv blocks next) (hn : 0 < n) (hfits : next + n.toNat ≤ 2 ^ 32) :
    BumpInv (update blocks (BitVec.ofNat 64 next) (some n)) (next + n.toNat) ∧
      NewBlock blocks (BitVec.ofNat 64 next) n := by
  have hnext := ofNat_toNat_lt (n := next) (by omega)
  have hpos : 0 < n.toNat := hn
  have hnull : BitVec.ofNat 64 next ≠ (0 : Uptr) := fun h0 => by
    rw [h0] at hnext
    have hz : (0 : Uptr).toNat = 0 := rfl
    have := h.1
    omega
  refine ⟨⟨Nat.add_pos_left h.1 _, fun c k hc => ?_⟩, hnull, ?_, by omega, fun b k hb => ?_⟩
  · by_cases he : c = BitVec.ofNat 64 next
    · rw [he, update_self] at hc
      cases hc
      exact ⟨Nat.le_of_eq (by rw [he, hnext]), hpos⟩
    · rw [update_of_ne he] at hc
      obtain ⟨hle, hk⟩ := h.2 c k hc
      exact ⟨by omega, hk⟩
  · cases hb : blocks (BitVec.ofNat 64 next) with
    | none => rfl
    | some k =>
        obtain ⟨hle, hk⟩ := h.2 _ k hb
        omega
  · obtain ⟨hle, -⟩ := h.2 b k hb
    exact .inr (by omega)

theorem bumpAllocator_meets : bumpAllocator.Meets BumpInv := by
  refine ⟨fun n s hn hI => ?_, fun b k n s hn hI hb => ?_, fun b k s hI _ => ?_⟩
  · by_cases hfits : s.rest + n.toNat ≤ 2 ^ 32
    · obtain ⟨hI', hnew⟩ := bumpInv_some hI hn hfits
      exact ⟨_, _, if_pos hfits, hI', fun _ _ _ _ _ => rfl, .inr ⟨hnew, rfl⟩⟩
    · exact ⟨_, _, if_neg hfits, hI, fun _ _ _ _ _ => rfl, .inl ⟨rfl, rfl⟩⟩
  · by_cases hfits : s.rest + n.toNat ≤ 2 ^ 32
    · have hnone := bumpInv_none hI b
      obtain ⟨hI', hnew⟩ := bumpInv_some hnone hn hfits
      have hrest := ofNat_toNat_lt (n := s.rest) (by omega)
      refine ⟨_, _, if_pos hfits, hI', fun c j hc x hx => ?_, .inr ⟨hnew, rfl, fun i hi => ?_⟩⟩
      · obtain ⟨hle, -⟩ := hnone.2 c j hc
        unfold InBlock at hx
        exact moved_out (by omega)
      · dsimp only
        rw [hrest, moved_in (by omega)]
        congr 1
        omega
    · exact ⟨_, _, if_neg hfits, hI, fun _ _ _ _ _ => rfl, .inl ⟨rfl, rfl⟩⟩
  · exact ⟨(), _, rfl, bumpInv_none hI b, fun _ _ _ _ _ => rfl, rfl⟩

end Bump

/-- Nothing has been allocated. -/
def emptyScratch : ScratchState Nat := ⟨0, ⟨fun _ => 0, fun _ => none, 0x1000⟩, []⟩

theorem bumpInv_empty : BumpInv emptyScratch.heap.blocks emptyScratch.heap.rest :=
  ⟨by decide, fun b k hb => by cases hb⟩

/-- A byte is written, its block grows behind another one that is given back. -/
def threeScratchCalls : List ScratchCall :=
  [.allocate 8, .write 0x1018 0 7, .allocate 16, .reallocate 0x1018 8 40, .deallocate 0x1038 16]

theorem scratch_keeps_three : ∃ r : ScratchRun Nat, hdrsOf r.live = [0x1048] ∧
    r.state.heap.mem 0x1060 = 7 ∧
    DList (linksAt r.state.heap.mem) (some 0x1048) (some 0x1048) [0x1048] ∧
    wp (scratchDeinit bumpAllocator 1) r.state fun _ s => s.head = 0 ∧ Books s.calls [] := by
  have hsome : (execIf (scratchStep bumpAllocator)
      (fun r call => decide (ScratchLegal r call ∧ ScratchFits call)) ⟨emptyScratch, []⟩
      threeScratchCalls).map (fun r => (hdrsOf r.live, r.state.heap.mem 0x1060, r.state.head)) =
      some ([0x1048], 7, 0x1048) := by
    decide +kernel
  obtain ⟨r, hexec, hr⟩ := Option.map_eq_some_iff.mp hsome
  have hlive := congrArg (fun x => x.1) hr
  have hhead := congrArg (fun x => x.2.2) hr
  have hrun := runs_mono (fun _ _ hp => of_decide_eq_true hp) (runs_execIf hexec)
  obtain ⟨his, -, hdeinit⟩ :=
    @scratch_keeps _ _ _ bumpAllocator_meets emptyScratch _ bumpInv_empty rfl rfl _ _ hrun
  dsimp only at hlive hhead
  have hlength : r.live.length = 1 := by
    have hl := congrArg List.length hlive
    unfold hdrsOf at hl
    rw [List.length_map] at hl
    exact hl
  have hchain := his.chain
  rw [hlive, hhead] at hchain
  exact ⟨r, hlive, congrArg (fun x => x.2.1) hr, hchain, hdeinit 1 (Nat.le_of_eq hlength)⟩

/-- The second block is 8 bytes for a size of 2^64 - 16, and its header reaches into the third. -/
def wrappingScratchCalls : List ScratchCall :=
  [.allocate 16, .allocate (BitVec.ofNat 64 (2 ^ 64 - 16)), .allocate 16]

theorem scratch_keeps_wrapping : bumpAllocator.Meets BumpInv ∧ ∃ r : ScratchRun Nat,
    Runs (scratchStep bumpAllocator) ScratchLegal ⟨emptyScratch, []⟩ wrappingScratchCalls r ∧
      ¬ ScratchIs r := by
  have hsome : (execIf (scratchStep bumpAllocator) (fun r call => decide (ScratchLegal r call))
      ⟨emptyScratch, []⟩ wrappingScratchCalls).map
        (fun r => (hdrsOf r.live, (linksAt r.state.heap.mem 0x1028).next)) =
      some ([0x1030, 0x1028, 0x1000], none) := by
    decide +kernel
  obtain ⟨r, hexec, hr⟩ := Option.map_eq_some_iff.mp hsome
  have hlive := congrArg Prod.fst hr
  have hnext := congrArg Prod.snd hr
  dsimp only at hlive hnext
  refine ⟨bumpAllocator_meets, r,
    runs_mono (fun _ _ hp => of_decide_eq_true hp) (runs_execIf hexec), fun h => ?_⟩
  have hchain := h.chain
  rw [hlive] at hchain
  have hlink : (linksAt r.state.heap.mem 0x1028).next = some 0x1000 :=
    @dlist_next _ _ _ _ _ [0x1030] [0x1000] hchain
  rw [hnext] at hlink
  cases hlink

end Slightx
