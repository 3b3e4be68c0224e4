/-
  File:      Slightx/Klibc/StrFormat.lean
  Subject:   `str_vformat`: a format measured, then written.

  Sources: klibc/algo/format.c, klibc/mem/str.c, klibc/mem/alloc.c, klibc/mem/bytes.c.

  A format is the list of its characters up to the terminator, and `none` is `str_null()`, the
  string without characters whose pointer is NULL. The negation of the most negative number
  overflows; the sanitizer the debug build is compiled with reports it and panics.

  * `formatted` -- what a format and its arguments stand for
  * `wp_formatterApplyV` -- the formatter gives its consumer the pieces of that text in order
  * `wp_copyPieces` -- what copies of pieces need
  * `strVformat_exact` -- the format is returned as formatted unless it is empty or too long, or an
    argument is the most negative number or a NULL string
-/
import Slightx.Klibc.Itoa

namespace Slightx

open Lib Function

/-! ## 1. Formats and arguments -/

/-- The character codes of the source. -/
def chr (c : Char) : U8 := BitVec.ofNat 8 c.toNat

structure FormatString where
  chars : List U8
  noNul : 0 ∉ chars

inductive FormatArg where
  | i64 (v : BitVec 64)
  | u64 (v : U64)
  | str (s : Option Str)
  | i32 (v : BitVec 32)

inductive ArgKind where
  | i64
  | u64
  | str
  | i32
  deriving DecidableEq, Repr

def FormatArg.kind : FormatArg → ArgKind
  | .i64 _ => .i64
  | .u64 _ => .u64
  | .str _ => .str
  | .i32 _ => .i32

/-- The labels of the `switch`, where `x` is also `X`. -/
inductive Conversion where
  | d
  | u
  | b
  | p
  | x
  | s
  | c
  | percent
  | unknown
  deriving DecidableEq, Repr

def conversion (c : U8) : Conversion :=
  if c = chr 'd' then .d
  else if c = chr 'u' then .u
  else if c = chr 'b' then .b
  else if c = chr 'p' then .p
  else if c = chr 'x' ∨ c = chr 'X' then .x
  else if c = chr 's' then .s
  else if c = chr 'c' then .c
  else if c = chr '%' then .percent
  else .unknown

/-! ## 2. The formatter -/

def strLiteral (chars : List U8) : Str :=
  { data := fun i => chars.getD i 0, length := BitVec.ofNat 64 chars.length,
    capacity := BitVec.ofNat 64 chars.length, owned := false }

/-- `str_char(c)` -/
def strChar (c : U8) : Str := { data := fun _ => c, length := 1, capacity := 1, owned := false }

/-- `num_buf` -/
def numBuf : Str := { data := fun _ => 0, length := 0, capacity := 65, owned := false }

section Formatter

variable {σ τ α : Type}

/-- A program on a variable of its own. -/
def onLocal (x : Prog Fault τ Unit) (t : τ) : Prog Fault σ τ :=
  match x t with
  | .ok (_, t') => pure t'
  | .error fault => throw fault

/-- The next argument, which C reads as what the format says it is. -/
def vaArg (get : FormatArg → Option α) : List FormatArg → Prog Fault σ (α × List FormatArg)
  | [] => throw (.panic "va_arg")
  | arg :: args =>
      match get arg with
      | some v => pure (v, args)
      | none => throw (.panic "va_arg")

def FormatArg.i64? : FormatArg → Option (BitVec 64)
  | .i64 v => some v
  | _ => none

def FormatArg.u64? : FormatArg → Option U64
  | .u64 v => some v
  | _ => none

def FormatArg.str? : FormatArg → Option (Option Str)
  | .str s => some s
  | _ => none

def FormatArg.i32? : FormatArg → Option (BitVec 32)
  | .i32 v => some v
  | _ => none

/-- `-ival` where it is negative. -/
def magnitude (ival : BitVec 64) : Prog Fault σ U64 :=
  if ival.toInt < 0 then
    if ival = BitVec.intMin 64 then panic "ubsan" else pure (-ival)
  else pure ival

/-- `if (negative) { self->consume(self->udata, str_literal("-")); }` -/
def formatSign (consume : Option Str → Prog Fault σ Unit) (ival : BitVec 64) : Prog Fault σ Unit :=
  if ival.toInt < 0 then consume (some (strLiteral [chr '-'])) else pure ()

/-- The case `'x'`, into which `'p'` falls through. -/
def formatHex (consume : Option Str → Prog Fault σ Unit) (args : List FormatArg) :
    Prog Fault σ (List FormatArg) := do
  let (uival, args) ← vaArg FormatArg.u64? args
  let num ← onLocal (itoa uival 16) numBuf
  consume (some (strLiteral [chr '0', chr 'x']))
  consume (some num)
  pure args

/-- The `switch` on the character behind a percent sign; it returns the arguments that are left. -/
def formatCase (consume : Option Str → Prog Fault σ Unit) (c : U8) (args : List FormatArg) :
    Prog Fault σ (List FormatArg) :=
  match conversion c with
  | .d => do
      let (ival, args) ← vaArg FormatArg.i64? args
      let uival ← magnitude ival
      let num ← onLocal (itoa uival 10) numBuf
      formatSign consume ival
      consume (some num)
      pure args
  | .u => do
      let (uival, args) ← vaArg FormatArg.u64? args
      let num ← onLocal (itoa uival 10) numBuf
      consume (some num)
      pure args
  | .b => do
      let (uival, args) ← vaArg FormatArg.u64? args
      let num ← onLocal (itoa uival 2) numBuf
      consume (some (strLiteral [chr '0', chr 'b']))
      consume (some num)
      pure args
  | .p => do
      consume (some (strLiteral [chr '*']))
      formatHex consume args
  | .x => formatHex consume args
  | .s => do
      let (s, args) ← vaArg FormatArg.str? args
      consume s
      pure args
  | .c => do
      let (v, args) ← vaArg FormatArg.i32? args
      consume (some (strChar (v.setWidth 8)))
      pure args
  | .percent => do
      consume (some (strLiteral [chr '%']))
      pure args
  | .unknown => do
      consume (some (strLiteral [chr '%']))
      consume (some (strChar c))
      pure args

def formatterApplyV (consume : Option Str → Prog Fault σ Unit) :
    List U8 → List FormatArg → Prog Fault σ Unit
  | [], _ => pure ()
  | [c], _ =>
      if c = chr '%' then consume (some (strLiteral [chr '%'])) else consume (some (strChar c))
  | c :: c' :: fmt, args =>
      if c = chr '%' then do
        let args ← formatCase consume c' args
        formatterApplyV consume fmt args
      else do
        consume (some (strChar c))
        formatterApplyV consume (c' :: fmt) args

end Formatter

/-! ## 3. The two passes -/

def chunkLength (chunk : Option Str) : Usize := (chunk.map Str.length).getD 0

def lenFormatter (chunk : Option Str) : Prog Fault Usize Unit :=
  modify fun sz => sz + chunkLength chunk

/-- `memcpy(dest->data + dest->length, chunk.data, chunk.length);` `memcpy` wants a source. -/
def copyChunk (chunk : Option Str) : Prog Fault Str Unit := do
  match chunk with
  | none => throw (.assertion "src != NULL")
  | some s => modify fun dest => { dest with
      data := fun i =>
        if dest.length.toNat ≤ i ∧ i < dest.length.toNat + s.length.toNat then
          s.data (i - dest.length.toNat)
        else dest.data i }

def copyFormatter (chunk : Option Str) : Prog Fault Str Unit := do
  let dest ← get
  assertRelease (chunkLength chunk ≤ dest.capacity - dest.length)
    "(dest->capacity - dest->length) >= chunk.length"
  copyChunk chunk
  modify fun dest => { dest with length := dest.length + chunkLength chunk }

section Vformat

variable {σ : Type}

/-- `allocate_v`, where `granted` says whether the allocator grants the block. -/
def allocateV (granted : Bool) (nmemb membsz : Usize) : Prog Fault σ Unit := do
  assert (0 < nmemb) "nmemb > 0"
  assert (0 < membsz) "membsz > 0"
  assertRelease (membsz ≤ BitVec.ofNat 64 (2 ^ 64 - 1) / nmemb) "SIZE_MAX / nmemb >= membsz"
  assert (0 < nmemb * membsz) "sz > 0"
  assertRelease (granted = true) "ptr != NULL"

/-- A string without characters yet, in a zeroed block. -/
def zeroedStr (capacity : Usize) : Str :=
  { data := fun _ => 0, length := 0, capacity := capacity, owned := true }

def strVformat (granted : Bool) (fmt : List U8) (args : List FormatArg) : Prog Fault σ Str := do
  let len ← onLocal (formatterApplyV lenFormatter fmt args) 0
  allocateV granted len 1
  onLocal (formatterApplyV copyFormatter fmt args) (zeroedStr (len * 1))

end Vformat

/-! ## 4. What a format stands for -/

/-- The kind of argument a conversion takes. -/
def Conversion.takes : Conversion → Option ArgKind
  | .d => some .i64
  | .u | .b | .p | .x => some .u64
  | .s => some .str
  | .c => some .i32
  | .percent | .unknown => none

/-- The arguments a format wants. -/
def wanted : List U8 → List ArgKind
  | [] => []
  | [_] => []
  | c :: c' :: fmt =>
      if c = chr '%' then (conversion c').takes.toList ++ wanted fmt else wanted (c' :: fmt)

def decimal (v : BitVec 64) : List U8 :=
  if v.toInt < 0 then chr '-' :: numeral 10 v.toInt.natAbs else numeral 10 v.toInt.natAbs

/-- The text of an argument under a conversion. -/
def Conversion.render : Conversion → FormatArg → List U8
  | .d, .i64 v => decimal v
  | .u, .u64 v => numeral 10 v.toNat
  | .b, .u64 v => chr '0' :: chr 'b' :: numeral 2 v.toNat
  | .p, .u64 v => chr '*' :: chr '0' :: chr 'x' :: numeral 16 v.toNat
  | .x, .u64 v => chr '0' :: chr 'x' :: numeral 16 v.toNat
  | .s, .str text => (text.map Str.text).getD []
  | .c, .i32 v => [v.setWidth 8]
  | _, _ => []

/-- **The text of a format.** A conversion it does not know stands for itself, and so does a percent
    sign at its end. -/
def formatted : List U8 → List FormatArg → List U8
  | [], _ => []
  | [c], _ => [c]
  | c :: c' :: fmt, args =>
      if c = chr '%' then
        match (conversion c').takes, args with
        | some _, arg :: args => (conversion c').render arg ++ formatted fmt args
        | some _, [] => []
        | none, args =>
            (if conversion c' = .percent then [c] else [c, c']) ++ formatted fmt args
      else c :: formatted (c' :: fmt) args

/-- **The format is returned as formatted**: `str_vformat` returns its text, in a block of the length
    that the first pass measured, unless the allocator has none. -/
def Formats (fmt : List U8) (args : List FormatArg) : Prop :=
  ∀ granted, ends (strVformat granted fmt args : Prog Fault Unit Str) ()
    (fun s _ => s.text = formatted fmt args ∧ s.length.toNat = (formatted fmt args).length ∧
      s.capacity = s.length ∧
      wp (formatterApplyV lenFormatter fmt args) 0 fun _ len => len = s.length)
    fun _ => granted = false

/-! ## 5. Pieces -/

/-- The texts that a conversion gives the consumer, `none` for a NULL string. -/
def Conversion.pieces : Conversion → FormatArg → List (Option (List U8))
  | .d, .i64 v =>
      (if v.toInt < 0 then [some [chr '-']] else []) ++ [some (numeral 10 v.toInt.natAbs)]
  | .u, .u64 v => [some (numeral 10 v.toNat)]
  | .b, .u64 v => [some [chr '0', chr 'b'], some (numeral 2 v.toNat)]
  | .p, .u64 v => [some [chr '*'], some [chr '0', chr 'x'], some (numeral 16 v.toNat)]
  | .x, .u64 v => [some [chr '0', chr 'x'], some (numeral 16 v.toNat)]
  | .s, .str text => [text.map Str.text]
  | .c, .i32 v => [some [v.setWidth 8]]
  | _, _ => []

def plainPieces (c : U8) : List (Option (List U8)) :=
  if conversion c = .percent then [some [chr '%']] else [some [chr '%'], some [c]]

/-- The pieces of a whole format. -/
def formatPieces : List U8 → List FormatArg → List (Option (List U8))
  | [], _ => []
  | [c], _ => [some [c]]
  | c :: c' :: fmt, args =>
      if c = chr '%' then
        match (conversion c').takes, args with
        | some _, arg :: args => (conversion c').pieces arg ++ formatPieces fmt args
        | some _, [] => []
        | none, args => plainPieces c' ++ formatPieces fmt args
      else some [c] :: formatPieces (c' :: fmt) args

/-- The characters of the pieces, one piece after the other. -/
def spelled (ps : List (Option (List U8))) : List U8 := ps.flatMap (·.getD [])

theorem spelled_append (ps qs : List (Option (List U8))) :
    spelled (ps ++ qs) = spelled ps ++ spelled qs := List.flatMap_append

theorem spelled_conversion (conv : Conversion) (arg : FormatArg) :
    spelled (conv.pieces arg) = conv.render arg := by
  cases conv with
  | d =>
      cases arg with
      | i64 v =>
          unfold spelled Conversion.pieces Conversion.render decimal
          by_cases hneg : v.toInt < 0
          · simp [hneg]
          · simp [hneg]
      | u64 v => rfl
      | str text => rfl
      | i32 v => rfl
  | u => cases arg <;> simp [spelled, Conversion.pieces, Conversion.render]
  | b => cases arg <;> simp [spelled, Conversion.pieces, Conversion.render]
  | p => cases arg <;> simp [spelled, Conversion.pieces, Conversion.render]
  | x => cases arg <;> simp [spelled, Conversion.pieces, Conversion.render]
  | s => cases arg <;> simp [spelled, Conversion.pieces, Conversion.render]
  | c => cases arg <;> simp [spelled, Conversion.pieces, Conversion.render]
  | percent => cases arg <;> rfl
  | unknown => cases arg <;> rfl

section Rendered

variable {c c' : U8} {fmt : List U8} {args : List FormatArg} {arg : FormatArg} {k : ArgKind}

theorem rendered_arg (hk : (conversion c').takes = some k) :
    formatted (chr '%' :: c' :: fmt) (arg :: args) =
      (conversion c').render arg ++ formatted fmt args := by
  simp [formatted, hk]

theorem formatPieces_arg (hk : (conversion c').takes = some k) :
    formatPieces (chr '%' :: c' :: fmt) (arg :: args) =
      (conversion c').pieces arg ++ formatPieces fmt args := by
  simp [formatPieces, hk]

theorem rendered_plain (hk : (conversion c').takes = none) :
    formatted (chr '%' :: c' :: fmt) args =
      (if conversion c' = .percent then [chr '%'] else [chr '%', c']) ++ formatted fmt args := by
  simp [formatted, hk]

theorem formatPieces_plain (hk : (conversion c').takes = none) :
    formatPieces (chr '%' :: c' :: fmt) args = plainPieces c' ++ formatPieces fmt args := by
  simp [formatPieces, hk]

theorem rendered_other (hc : c ≠ chr '%') :
    formatted (c :: c' :: fmt) args = c :: formatted (c' :: fmt) args := by
  rw [formatted.eq_def]
  exact if_neg hc

theorem formatPieces_other (hc : c ≠ chr '%') :
    formatPieces (c :: c' :: fmt) args = some [c] :: formatPieces (c' :: fmt) args := by
  rw [formatPieces.eq_def]
  exact if_neg hc

end Rendered

/-- **The pieces spell the text of the format.** -/
theorem spelled_formatPieces (fmt : List U8) (args : List FormatArg) :
    spelled (formatPieces fmt args) = formatted fmt args := by
  induction fmt, args using formatted.induct with
  | case1 args => rfl
  | case2 c args => rfl
  | case3 c' fmt k arg args hk ih =>
      rw [formatPieces_arg hk, rendered_arg hk, spelled_append, spelled_conversion, ih]
  | case4 c' fmt k hk => simp [formatPieces, formatted, hk, spelled]
  | case5 c' fmt args hk ih =>
      rw [formatPieces_plain hk, rendered_plain hk, spelled_append, ih]
      unfold plainPieces
      split <;> rfl
  | case6 c c' fmt args hc ih =>
      rw [formatPieces_other hc, rendered_other hc, ← ih]
      rfl

/-! ## 6. The formatter -/

section Consumer

variable {σ τ α : Type} {s : σ} {consume : Option Str → Prog Fault σ Unit}
  {eat : Option (List U8) → Prog Fault σ Unit}

/-- A consumer of texts, given one after the other. -/
def eatAll (eat : Option (List U8) → Prog Fault σ Unit) :
    List (Option (List U8)) → Prog Fault σ Unit
  | [] => pure ()
  | p :: ps => do
      eat p
      eatAll eat ps

theorem wp_eatAll_append (ps qs : List (Option (List U8))) (Q : Unit → σ → Prop) :
    wp (eatAll eat (ps ++ qs)) s Q ↔
      wp (eatAll eat ps) s fun _ s' => wp (eatAll eat qs) s' Q := by
  induction ps generalizing s with
  | nil =>
      rw [eatAll, wp_pure]
      rfl
  | cons p ps ih =>
      rw [List.cons_append, eatAll, eatAll, wp_bind, wp_bind]
      simp only [ih]

theorem wp_onLocal (x : Prog Fault τ Unit) (t : τ) (Q : τ → σ → Prop) :
    wp (onLocal x t) s Q ↔ wp x t fun _ t' => Q t' s := by
  unfold onLocal
  cases hx : x t with
  | ok r => rw [wp_of_eq hx, wp_pure]
  | error fault =>
      rw [wp_throw]
      exact iff_of_false id (not_wp_of_stops hx _)

/-- A number in a buffer of the formatter. -/
theorem onLocal_itoa (n : U64) {base : Int} (hb : 2 ≤ base) (hb' : base ≤ 16) :
    ∃ num : Str, num.text = numeral base.toNat n.toNat ∧
      ∀ s : σ, (onLocal (itoa n base) numBuf : Prog Fault σ Str) s = .ok (num, s) := by
  have hroom : 64 ≤ numBuf.capacity.toNat := by decide
  obtain ⟨_, num, hrun, hnum⟩ := wp_itoa (n := n) hb hb' rfl hroom
  refine ⟨num, hnum, fun s => ?_⟩
  unfold onLocal
  rw [hrun]
  rfl

theorem toInt_neg_abs {v : BitVec 64} (h : v.toInt < 0) : (-v).toNat = v.toInt.natAbs := by
  rw [BitVec.toInt_eq_toNat_cond] at h ⊢
  rw [BitVec.toNat_neg]
  split at h <;> omega

theorem wp_magnitude (v : BitVec 64) (Q : U64 → σ → Prop) :
    wp (magnitude v) s Q ↔ v ≠ BitVec.intMin 64 ∧ Q (if v.toInt < 0 then -v else v) s := by
  unfold magnitude
  by_cases hneg : v.toInt < 0
  · rw [if_pos hneg, if_pos hneg]
    by_cases hmin : v = BitVec.intMin 64
    · rw [if_pos hmin, wp_panic]
      exact iff_of_false id fun h => h.1 hmin
    · rw [if_neg hmin, wp_pure, and_iff_right hmin]
  · have hmin : v ≠ BitVec.intMin 64 := by
      rintro rfl
      exact hneg (by decide)
    rw [if_neg hneg, if_neg hneg, wp_pure, and_iff_right hmin]

theorem toNat_magnitude (v : BitVec 64) :
    (if v.toInt < 0 then -v else v : U64).toNat = v.toInt.natAbs := by
  split
  · rename_i hneg
    exact toInt_neg_abs hneg
  · rename_i hpos
    rw [BitVec.toInt_eq_toNat_cond] at hpos ⊢
    split at hpos <;> omega

/-- What the consumer does with a chunk depends on its text. -/
def Eats (consume : Option Str → Prog Fault σ Unit) (eat : Option (List U8) → Prog Fault σ Unit) :
    Prop :=
  ∀ chunk s Q, wp (consume chunk) s Q ↔ wp (eat (chunk.map Str.text)) s Q

theorem wp_consume (he : Eats consume eat) (chunk : Option Str) (Q : Unit → σ → Prop) :
    wp (consume chunk) s Q ↔ wp (eat (chunk.map Str.text)) s Q := he chunk s Q

@[simp] theorem text_strLiteral_one (a : U8) : (strLiteral [a]).text = [a] := rfl

@[simp] theorem text_strLiteral_two (a b : U8) : (strLiteral [a, b]).text = [a, b] := rfl

@[simp] theorem text_strChar (a : U8) : (strChar a).text = [a] := rfl

theorem wp_formatHex (he : Eats consume eat) (v : U64) (args : List FormatArg)
    (Q : List FormatArg → σ → Prop) :
    wp (formatHex consume (.u64 v :: args)) s Q ↔
      wp (eatAll eat [some [chr '0', chr 'x'], some (numeral 16 v.toNat)]) s fun _ s' =>
        Q args s' := by
  obtain ⟨num, hnum, hrun⟩ := @onLocal_itoa σ v 16 (by decide) (by decide)
  have hnum' : num.text = numeral 16 v.toNat := hnum
  unfold formatHex vaArg FormatArg.u64?
  simp only [wp_bind, wp_pure, wp_of_eq (hrun _), wp_consume he, eatAll, Option.map_some, hnum',
    text_strLiteral_two]

/-- **A conversion with its argument.** -/
theorem wp_formatCase_arg (he : Eats consume eat) {c : U8} {arg : FormatArg}
    (hk : (conversion c).takes = some arg.kind) (args : List FormatArg)
    (Q : List FormatArg → σ → Prop) :
    wp (formatCase consume c (arg :: args)) s Q ↔
      (∀ v, arg = .i64 v → v ≠ BitVec.intMin 64) ∧
        wp (eatAll eat ((conversion c).pieces arg)) s fun _ s' => Q args s' := by
  have hother : (∀ v, arg ≠ .i64 v) → ∀ R : Prop,
      ((∀ v, arg = .i64 v → v ≠ BitVec.intMin 64) ∧ R ↔ R) := fun h R =>
    and_iff_right fun v hv => absurd hv (h v)
  unfold formatCase
  cases hconv : conversion c with
  | d =>
      rw [hconv] at hk
      cases arg with
      | u64 v => cases hk
      | str text => cases hk
      | i32 v => cases hk
      | i64 v =>
          obtain ⟨num, hnum, hrun⟩ :=
            @onLocal_itoa σ (if v.toInt < 0 then -v else v) 10 (by decide) (by decide)
          rw [toNat_magnitude] at hnum
          have hnum' : num.text = numeral 10 v.toInt.natAbs := hnum
          have hmin : (∀ w, FormatArg.i64 v = .i64 w → w ≠ BitVec.intMin 64) ↔
              v ≠ BitVec.intMin 64 := by
            refine ⟨fun h => h v rfl, fun h w hw => ?_⟩
            cases hw
            exact h
          unfold vaArg FormatArg.i64? formatSign Conversion.pieces
          rw [wp_bind, wp_pure, wp_bind, wp_magnitude, hmin]
          refine and_congr_right fun _ => ?_
          rw [wp_bind, wp_of_eq (hrun _), wp_eatAll_append, wp_bind]
          by_cases hneg : v.toInt < 0
          · simp only [hneg, if_true, wp_bind, wp_pure, wp_consume he, eatAll, Option.map_some,
            hnum',
              text_strLiteral_one]
          · simp only [hneg, if_false, wp_bind, wp_pure, wp_consume he, eatAll, Option.map_some,
            hnum']
  | u =>
      rw [hconv] at hk
      cases arg with
      | i64 v => cases hk
      | str text => cases hk
      | i32 v => cases hk
      | u64 v =>
          obtain ⟨num, hnum, hrun⟩ := @onLocal_itoa σ v 10 (by decide) (by decide)
          have hnum' : num.text = numeral 10 v.toNat := hnum
          rw [hother (fun w hw => by cases hw)]
          unfold vaArg FormatArg.u64? Conversion.pieces
          simp only [wp_bind, wp_pure, wp_of_eq (hrun _), wp_consume he, eatAll, Option.map_some,
            hnum']
  | b =>
      rw [hconv] at hk
      cases arg with
      | i64 v => cases hk
      | str text => cases hk
      | i32 v => cases hk
      | u64 v =>
          obtain ⟨num, hnum, hrun⟩ := @onLocal_itoa σ v 2 (by decide) (by decide)
          have hnum' : num.text = numeral 2 v.toNat := hnum
          rw [hother (fun w hw => by cases hw)]
          unfold vaArg FormatArg.u64? Conversion.pieces
          simp only [wp_bind, wp_pure, wp_of_eq (hrun _), wp_consume he, eatAll, Option.map_some,
            hnum',
            text_strLiteral_two]
  | p =>
      rw [hconv] at hk
      cases arg with
      | i64 v => cases hk
      | str text => cases hk
      | i32 v => cases hk
      | u64 v =>
          rw [hother (fun w hw => by cases hw)]
          unfold Conversion.pieces
          rw [wp_bind, wp_consume he, eatAll, wp_bind]
          simp only [wp_formatHex he, Option.map_some, text_strLiteral_one]
  | x =>
      rw [hconv] at hk
      cases arg with
      | i64 v => cases hk
      | str text => cases hk
      | i32 v => cases hk
      | u64 v =>
          rw [hother (fun w hw => by cases hw)]
          exact wp_formatHex he v args Q
  | s =>
      rw [hconv] at hk
      cases arg with
      | i64 v => cases hk
      | u64 v => cases hk
      | i32 v => cases hk
      | str text =>
          rw [hother (fun w hw => by cases hw)]
          unfold vaArg FormatArg.str? Conversion.pieces
          simp only [wp_bind, wp_pure, wp_consume he, eatAll]
  | c =>
      rw [hconv] at hk
      cases arg with
      | i64 v => cases hk
      | u64 v => cases hk
      | str text => cases hk
      | i32 v =>
          rw [hother (fun w hw => by cases hw)]
          unfold vaArg FormatArg.i32? Conversion.pieces
          simp only [wp_bind, wp_pure, wp_consume he, eatAll, Option.map_some, text_strChar]
  | percent =>
      rw [hconv] at hk
      cases hk
  | unknown =>
      rw [hconv] at hk
      cases hk

/-- A character behind a percent sign that takes no argument. -/
theorem wp_formatCase_plain (he : Eats consume eat) {c : U8} (hk : (conversion c).takes = none)
    (args : List FormatArg) (Q : List FormatArg → σ → Prop) :
    wp (formatCase consume c args) s Q ↔
      wp (eatAll eat (plainPieces c)) s fun _ s' => Q args s' := by
  unfold formatCase plainPieces
  cases hconv : conversion c with
  | percent =>
      simp only [wp_bind, wp_pure, wp_consume he, eatAll, Option.map_some, text_strLiteral_one,
        if_true]
  | unknown =>
      rw [if_neg (by decide)]
      simp only [wp_bind, wp_pure, wp_consume he, eatAll, Option.map_some, text_strLiteral_one,
        text_strChar]
  | d => rw [hconv] at hk; cases hk
  | u => rw [hconv] at hk; cases hk
  | b => rw [hconv] at hk; cases hk
  | p => rw [hconv] at hk; cases hk
  | x => rw [hconv] at hk; cases hk
  | s => rw [hconv] at hk; cases hk
  | c => rw [hconv] at hk; cases hk

/-- What does not depend on the run. -/
theorem wp_and_left {x : Prog Fault σ α} {P : Prop} {Q : α → σ → Prop} :
    wp x s (fun a s' => P ∧ Q a s') ↔ P ∧ wp x s Q := by
  constructor
  · rintro ⟨a, s', hx, hp, hq⟩
    exact ⟨hp, a, s', hx, hq⟩
  · rintro ⟨hp, a, s', hx, hq⟩
    exact ⟨a, s', hx, hp, hq⟩

/-- No argument is the number whose negation overflows. -/
def NoneMin (args : List FormatArg) : Prop := ∀ v, .i64 v ∈ args → v ≠ BitVec.intMin 64

/-- **The formatter gives its consumer the pieces of the format**, and stops at the most negative
    number. -/
theorem wp_formatterApplyV (he : Eats consume eat) {fmt : List U8} {args : List FormatArg}
    (hm : args.map FormatArg.kind = wanted fmt) {Q : Unit → σ → Prop} :
    wp (formatterApplyV consume fmt args) s Q ↔
      NoneMin args ∧ wp (eatAll eat (formatPieces fmt args)) s Q := by
  induction fmt, args using formatted.induct generalizing s with
  | case1 args =>
      obtain rfl := List.map_eq_nil_iff.mp hm
      exact (and_iff_right fun v hv => absurd hv List.not_mem_nil).symm
  | case2 c args =>
      obtain rfl := List.map_eq_nil_iff.mp hm
      have hnone : NoneMin [] := fun v hv => absurd hv List.not_mem_nil
      rw [formatterApplyV, formatPieces, and_iff_right hnone]
      by_cases hc : c = chr '%'
      · rw [if_pos hc, wp_consume he, hc]
        simp only [eatAll, wp_bind, wp_pure, Option.map_some, text_strLiteral_one]
      · rw [if_neg hc, wp_consume he]
        simp only [eatAll, wp_bind, wp_pure, Option.map_some, text_strChar]
  | case3 c' fmt k arg args hk ih =>
      rw [wanted, if_pos rfl, hk] at hm
      obtain ⟨hkind, hm'⟩ := List.cons.inj hm
      have hmin : NoneMin (arg :: args) ↔
          (∀ v, arg = .i64 v → v ≠ BitVec.intMin 64) ∧ NoneMin args := by
        refine ⟨fun h => ⟨fun v hv => h v (hv ▸ List.mem_cons_self),
          fun v hv => h v (List.mem_cons_of_mem _ hv)⟩, fun h v hv => ?_⟩
        rcases List.mem_cons.mp hv with hv | hv
        · exact h.1 v hv.symm
        · exact h.2 v hv
      rw [formatterApplyV, if_pos rfl, wp_bind, wp_formatCase_arg he (hkind ▸ hk), formatPieces_arg hk,
        wp_eatAll_append, hmin, and_assoc]
      refine and_congr_right fun _ => ?_
      simp only [ih hm']
      exact wp_and_left
  | case4 c' fmt k hk =>
      rw [wanted, if_pos rfl, hk] at hm
      cases hm
  | case5 c' fmt args hk ih =>
      rw [wanted, if_pos rfl, hk] at hm
      rw [formatterApplyV, if_pos rfl, wp_bind, wp_formatCase_plain he hk, formatPieces_plain hk,
        wp_eatAll_append]
      simp only [ih hm]
      exact wp_and_left
  | case6 c c' fmt args hc ih =>
      rw [wanted, if_neg hc] at hm
      rw [formatterApplyV, if_neg hc, wp_bind, wp_consume he, formatPieces_other hc, eatAll, wp_bind]
      simp only [ih hm, Option.map_some, text_strChar]
      exact wp_and_left

end Consumer

/-! ## 7. The two consumers -/

/-- The pieces are texts of strings. -/
def SmallPieces (ps : List (Option (List U8))) : Prop :=
  ∀ p ∈ ps, (p.getD []).length < 2 ^ 64

theorem smallPieces_append {ps qs : List (Option (List U8))} :
    SmallPieces (ps ++ qs) ↔ SmallPieces ps ∧ SmallPieces qs := List.forall_mem_append

theorem length_numeral {base n : Nat} (hb : 1 < base) (hn : n < 2 ^ 64) :
    (numeral base n).length < 2 ^ 64 := by
  unfold numeral
  rw [List.length_map]
  have hle : (Nat.toDigits base n).length ≤ 64 :=
    (Nat.length_toDigits_le_iff hb (by decide)).mpr
      (Nat.lt_of_lt_of_le hn (Nat.pow_le_pow_left hb 64))
  omega

theorem smallPieces_nil : SmallPieces [] := fun _ hp => absurd hp List.not_mem_nil

theorem smallPieces_cons {p : Option (List U8)} {ps : List (Option (List U8))} :
    SmallPieces (p :: ps) ↔ (p.getD []).length < 2 ^ 64 ∧ SmallPieces ps := List.forall_mem_cons

theorem smallPieces_one (c : U8) : SmallPieces [some [c]] :=
  smallPieces_cons.mpr ⟨Nat.one_lt_two_pow (by decide), smallPieces_nil⟩

theorem smallPieces_numeral {base : Nat} (hb : 1 < base) (v : U64) :
    SmallPieces [some (numeral base v.toNat)] :=
  smallPieces_cons.mpr ⟨length_numeral hb v.isLt, smallPieces_nil⟩

theorem smallPieces_two {a b : U8} {ps : List (Option (List U8))} (h : SmallPieces ps) :
    SmallPieces (some [a, b] :: ps) :=
  smallPieces_cons.mpr ⟨show 2 < 2 ^ 64 by decide, h⟩

theorem smallPieces_conversion (conv : Conversion) (arg : FormatArg) :
    SmallPieces (conv.pieces arg) := by
  unfold Conversion.pieces
  split
  · rename_i v
    have hnum := @smallPieces_numeral 10 (by decide) (if v.toInt < 0 then -v else v)
    rw [toNat_magnitude] at hnum
    refine smallPieces_append.mpr ⟨?_, hnum⟩
    split
    · exact smallPieces_one _
    · exact smallPieces_nil
  · exact smallPieces_numeral (by decide) _
  · exact smallPieces_two (smallPieces_numeral (by decide) _)
  · exact smallPieces_cons.mpr
      ⟨show 1 < 2 ^ 64 by decide, smallPieces_two (smallPieces_numeral (by decide) _)⟩
  · exact smallPieces_two (smallPieces_numeral (by decide) _)
  · rename_i text
    refine smallPieces_cons.mpr ⟨?_, smallPieces_nil⟩
    cases text with
    | none => exact Nat.two_pow_pos 64
    | some s =>
        show s.text.length < 2 ^ 64
        rw [length_strText]
        exact s.length.isLt
  · exact smallPieces_one _
  · exact smallPieces_nil

theorem smallPieces_pieces (fmt : List U8) (args : List FormatArg) :
    SmallPieces (formatPieces fmt args) := by
  induction fmt, args using formatted.induct with
  | case1 args => exact smallPieces_nil
  | case2 c args => exact smallPieces_one c
  | case3 c' fmt k arg args hk ih =>
      rw [formatPieces_arg hk]
      exact smallPieces_append.mpr ⟨smallPieces_conversion _ arg, ih⟩
  | case4 c' fmt k hk =>
      have hnil : formatPieces (chr '%' :: c' :: fmt) [] = [] := by simp [formatPieces, hk]
      rw [hnil]
      exact smallPieces_nil
  | case5 c' fmt args hk ih =>
      rw [formatPieces_plain hk]
      refine smallPieces_append.mpr ⟨?_, ih⟩
      unfold plainPieces
      split
      · exact smallPieces_one _
      · exact smallPieces_append.mpr ⟨smallPieces_one (chr '%'), smallPieces_one c'⟩
  | case6 c c' fmt args hc ih =>
      rw [formatPieces_other hc]
      exact smallPieces_append.mpr ⟨smallPieces_one c, ih⟩

section Passes

variable {dest : Str} {ps : List (Option (List U8))} {t : List U8}

/-- `len_formatter`, of a text. -/
def eatLength (p : Option (List U8)) : Prog Fault Usize Unit :=
  modify fun sz => sz + BitVec.ofNat 64 (p.getD []).length

theorem chunkLength_text (chunk : Option Str) :
    chunkLength chunk = BitVec.ofNat 64 ((chunk.map Str.text).getD []).length := by
  cases chunk with
  | none => rfl
  | some s =>
      show s.length = BitVec.ofNat 64 s.text.length
      rw [length_strText, BitVec.ofNat_toNat, BitVec.setWidth_eq]

theorem eats_lenFormatter : Eats lenFormatter eatLength := fun chunk len Q => by
  unfold lenFormatter eatLength
  rw [chunkLength_text]

theorem wp_lengthPieces (len : Usize) (Q : Unit → Usize → Prop) :
    wp (eatAll eatLength ps) len Q ↔ Q () (len + BitVec.ofNat 64 (spelled ps).length) := by
  induction ps generalizing len with
  | nil =>
      rw [eatAll, wp_pure]
      have hzero : len + BitVec.ofNat 64 (spelled []).length = len := BitVec.add_zero len
      rw [hzero]
  | cons p ps ih =>
      rw [eatAll, wp_bind]
      unfold eatLength
      rw [wp_modify]
      refine (ih _).trans ?_
      rw [BitVec.add_assoc, ← BitVec.ofNat_add]
      have hlen : (spelled (p :: ps)).length = (p.getD []).length + (spelled ps).length := by
        unfold spelled
        rw [List.flatMap_cons, List.length_append]
      rw [hlen]

/-- A text behind the one that is there. -/
def Str.append (dest : Str) (t : List U8) : Str :=
  { dest with
    data := fun i =>
      if dest.length.toNat ≤ i ∧ i < dest.length.toNat + t.length then
        t.getD (i - dest.length.toNat) 0
      else dest.data i
    length := dest.length + BitVec.ofNat 64 t.length }

/-- `copy_formatter`, of a text. -/
def eatCopy (p : Option (List U8)) : Prog Fault Str Unit := do
  let dest ← get
  assertRelease (BitVec.ofNat 64 (p.getD []).length ≤ dest.capacity - dest.length)
    "(dest->capacity - dest->length) >= chunk.length"
  match p with
  | none => throw (.assertion "src != NULL")
  | some t => set (dest.append t)

theorem getD_text (s : Str) {i : Nat} (h : i < s.length.toNat) : s.text.getD i 0 = s.data i := by
  have hlt : i < s.text.length := by
    rw [length_strText]
    exact h
  rw [List.getD_eq_getElem?_getD, List.getElem?_eq_getElem hlt, Option.getD_some]
  simp [Str.text]

theorem eats_copyFormatter : Eats copyFormatter eatCopy := fun chunk dest Q => by
  unfold copyFormatter copyChunk eatCopy
  simp only [wp_bind, wp_get, wp_assertRelease, chunkLength_text]
  refine and_congr_right fun _ => ?_
  cases chunk with
  | none => exact iff_of_false (wp_throw _ _ _).mp (wp_throw _ _ _).mp
  | some s =>
      have happ : { dest with
          data := fun i =>
            if dest.length.toNat ≤ i ∧ i < dest.length.toNat + s.length.toNat then
              s.data (i - dest.length.toNat)
            else dest.data i
          length := dest.length + chunkLength (some s) : Str } = dest.append s.text := by
        unfold Str.append
        rw [length_strText, chunkLength_text, Option.map_some, Option.getD_some, length_strText]
        congr 1
        funext i
        split
        · rename_i hin
          rw [getD_text s (by omega)]
        · rfl
      rw [Option.map_some, wp_set, ← happ, chunkLength_text]
      rw [wp_modify, wp_modify]
      exact Iff.rfl

theorem length_append_toNat (h : dest.length.toNat + t.length < 2 ^ 64) :
    (dest.append t).length.toNat = dest.length.toNat + t.length := by
  unfold Str.append
  show (dest.length + BitVec.ofNat 64 t.length).toNat = _
  rw [BitVec.toNat_add, ofNat_toNat_lt (by omega), Nat.mod_eq_of_lt h]

theorem text_append (h : dest.length.toNat + t.length < 2 ^ 64) :
    (dest.append t).text = dest.text ++ t := by
  refine List.ext_getElem ?_ fun i hi _ => ?_
  · rw [length_strText, length_append_toNat h, List.length_append, length_strText]
  · rw [length_strText, length_append_toNat h] at hi
    have hget : (dest.append t).text[i] = (dest.append t).data i := by simp [Str.text]
    rw [hget]
    show (if dest.length.toNat ≤ i ∧ i < dest.length.toNat + t.length then
      t.getD (i - dest.length.toNat) 0 else dest.data i) = _
    by_cases hlt : i < dest.length.toNat
    · rw [if_neg (by omega), List.getElem_append_left (by rw [length_strText]; exact hlt)]
      simp [Str.text]
    · have hin : i - dest.length.toNat < t.length := by omega
      rw [if_pos (by omega), List.getElem_append_right (by rw [length_strText]; omega),
        List.getD_eq_getElem?_getD, List.getElem?_eq_getElem hin, Option.getD_some]
      congr 1
      rw [length_strText]

/-- **A copy needs a source and the room for it.** -/
theorem wp_eatCopy {p : Option (List U8)} (hroom : dest.length ≤ dest.capacity)
    (hsmall : (p.getD []).length < 2 ^ 64) (Q : Unit → Str → Prop) :
    wp (eatCopy p) dest Q ↔ p ≠ none ∧
      dest.length.toNat + (p.getD []).length ≤ dest.capacity.toNat ∧
      Q () (dest.append (p.getD [])) := by
  have hle : BitVec.ofNat 64 (p.getD []).length ≤ dest.capacity - dest.length ↔
      dest.length.toNat + (p.getD []).length ≤ dest.capacity.toNat := by
    rw [BitVec.le_def, ofNat_toNat_lt hsmall, BitVec.toNat_sub_of_le hroom]
    have hroom' : dest.length.toNat ≤ dest.capacity.toNat := hroom
    omega
  unfold eatCopy
  rw [wp_bind, wp_get, wp_bind, wp_assertRelease, hle]
  cases p with
  | none =>
      rw [wp_throw]
      exact iff_of_false And.right fun h => h.1 rfl
  | some t =>
      rw [wp_set]
      exact (and_iff_right (by intro h; cases h)).symm

/-- **Copies of pieces**: none of them may be NULL, and together they must fit. -/
theorem wp_copyPieces (hroom : dest.length ≤ dest.capacity) (hsmall : SmallPieces ps)
    (Q : Unit → Str → Prop) :
    wp (eatAll eatCopy ps) dest Q ↔ (none ∉ ps) ∧
      dest.length.toNat + (spelled ps).length ≤ dest.capacity.toNat ∧
      Q () (ps.foldl (fun dest p => dest.append (p.getD [])) dest) := by
  induction ps generalizing dest with
  | nil =>
      rw [eatAll, wp_pure]
      have hroom' : dest.length.toNat ≤ dest.capacity.toNat := hroom
      exact (and_iff_right List.not_mem_nil).trans (and_iff_right hroom') |>.symm
  | cons p ps ih =>
      obtain ⟨hp, hsmall'⟩ := smallPieces_cons.mp hsmall
      have hlen : (spelled (p :: ps)).length = (p.getD []).length + (spelled ps).length := by
        unfold spelled
        rw [List.flatMap_cons, List.length_append]
      rw [eatAll, wp_bind, wp_eatCopy hroom hp, hlen, List.mem_cons, List.foldl_cons]
      by_cases hfit : dest.length.toNat + (p.getD []).length ≤ dest.capacity.toNat
      · have hcap := dest.capacity.isLt
        have hlength := @length_append_toNat dest (p.getD []) (by omega)
        have hroom' : (dest.append (p.getD [])).length ≤ (dest.append (p.getD [])).capacity := by
          rw [BitVec.le_def, hlength]
          exact hfit
        have hcap' : (dest.append (p.getD [])).capacity = dest.capacity := rfl
        rw [ih hroom' hsmall', hlength, hcap', and_iff_right hfit, not_or, Nat.add_assoc, and_assoc]
        exact and_congr_left' (not_congr eq_comm)
      · exact iff_of_false (fun h => hfit h.2.1) fun h => hfit (by omega)

/-- The texts of the pieces, one behind the other. -/
theorem foldl_append (h : dest.length.toNat + (spelled ps).length < 2 ^ 64) :
    (ps.foldl (fun dest p => dest.append (p.getD [])) dest).text = dest.text ++ spelled ps ∧
      (ps.foldl (fun dest p => dest.append (p.getD [])) dest).length.toNat =
        dest.length.toNat + (spelled ps).length ∧
      (ps.foldl (fun dest p => dest.append (p.getD [])) dest).capacity = dest.capacity := by
  induction ps generalizing dest with
  | nil => exact ⟨(List.append_nil _).symm, rfl, rfl⟩
  | cons p ps ih =>
      have hspelled : spelled (p :: ps) = p.getD [] ++ spelled ps := List.flatMap_cons
      rw [hspelled, List.length_append] at h ⊢
      have hlength := @length_append_toNat dest (p.getD []) (by omega)
      have htext := @text_append dest (p.getD []) (by omega)
      obtain ⟨ih₁, ih₂, ih₃⟩ := @ih (dest.append (p.getD [])) (by omega)
      rw [List.foldl_cons, ih₁, ih₂, ih₃, htext, hlength, List.append_assoc, Nat.add_assoc]
      exact ⟨rfl, rfl, rfl⟩

end Passes

/-! ## 8. When the text is returned -/

section Exact

variable {σ : Type} {s : σ} {granted : Bool} {fmt : List U8} {args : List FormatArg}

theorem wp_allocateV (nmemb : Usize) (Q : Unit → σ → Prop) :
    wp (allocateV granted nmemb 1) s Q ↔ 0 < nmemb.toNat ∧ granted = true ∧ Q () s := by
  have hmax : 0 < nmemb → 1 ≤ BitVec.ofNat 64 (2 ^ 64 - 1) / nmemb := fun hpos => by
    have hlt := nmemb.isLt
    rw [BitVec.le_def, BitVec.toNat_udiv]
    exact (Nat.one_le_div_iff hpos).mpr (Nat.le_sub_one_of_lt hlt)
  have hone : nmemb * 1 = nmemb := BitVec.mul_one nmemb
  unfold allocateV
  simp only [wp_bind, wp_assert, wp_assertRelease, hone]
  constructor
  · rintro ⟨hpos, -, -, -, hgranted, hq⟩
    exact ⟨hpos, hgranted, hq⟩
  · rintro ⟨hpos, hgranted, hq⟩
    exact ⟨hpos, by decide, hmax hpos, hpos, hgranted, hq⟩

/-- The string that is returned. -/
def written (fmt : List U8) (args : List FormatArg) : Str :=
  (formatPieces fmt args).foldl (fun dest p => dest.append (p.getD []))
    (zeroedStr (BitVec.ofNat 64 (formatted fmt args).length))

theorem written_eq (hsmall : (formatted fmt args).length < 2 ^ 64) :
    (written fmt args).text = formatted fmt args ∧
      (written fmt args).length.toNat = (formatted fmt args).length ∧
      (written fmt args).capacity = (written fmt args).length := by
  have hfit : (0 : Usize).toNat + (spelled (formatPieces fmt args)).length < 2 ^ 64 := by
    rw [spelled_formatPieces, show (0 : Usize).toNat = 0 from rfl, Nat.zero_add]
    exact hsmall
  obtain ⟨htext, hlength, hcap⟩ :=
    @foldl_append (zeroedStr (BitVec.ofNat 64 (formatted fmt args).length)) _ hfit
  rw [spelled_formatPieces] at htext hlength
  have hlength' : (written fmt args).length.toNat = (formatted fmt args).length :=
    hlength.trans (Nat.zero_add _)
  refine ⟨htext, hlength', hcap.trans (BitVec.eq_of_toNat_eq ?_)⟩
  rw [hlength']
  exact ofNat_toNat_lt hsmall

/-- **What `str_vformat` needs to return**, and what it returns. -/
theorem wp_strVformat (hm : args.map FormatArg.kind = wanted fmt) (Q : Str → σ → Prop) :
    wp (strVformat granted fmt args) s Q ↔
      (NoneMin args ∧ formatted fmt args ≠ [] ∧ none ∉ formatPieces fmt args ∧
        (formatted fmt args).length < 2 ^ 64) ∧ granted = true ∧ Q (written fmt args) s := by
  have hzero : (0 : Usize) + BitVec.ofNat 64 (formatted fmt args).length =
      BitVec.ofNat 64 (formatted fmt args).length := BitVec.zero_add _
  have hone : BitVec.ofNat 64 (formatted fmt args).length * 1 =
      BitVec.ofNat 64 (formatted fmt args).length := BitVec.mul_one _
  unfold strVformat
  rw [wp_bind, wp_onLocal, wp_formatterApplyV eats_lenFormatter hm, wp_lengthPieces,
    spelled_formatPieces, hzero, wp_bind, wp_allocateV, wp_onLocal, hone,
    wp_formatterApplyV eats_copyFormatter hm]
  have hroom : (0 : Usize) ≤ BitVec.ofNat 64 (formatted fmt args).length := Nat.zero_le _
  have hfit : (zeroedStr (BitVec.ofNat 64 (formatted fmt args).length)).length.toNat +
      (formatted fmt args).length ≤
        (zeroedStr (BitVec.ofNat 64 (formatted fmt args).length)).capacity.toNat ↔
      (formatted fmt args).length ≤ (formatted fmt args).length % 2 ^ 64 := by
    show (0 : Usize).toNat + _ ≤ (BitVec.ofNat 64 (formatted fmt args).length).toNat ↔ _
    rw [BitVec.toNat_ofNat, show (0 : Usize).toNat = 0 from rfl, Nat.zero_add]
  rw [wp_copyPieces hroom (smallPieces_pieces fmt args), spelled_formatPieces, hfit,
    BitVec.toNat_ofNat]
  have hlt : (formatted fmt args).length % 2 ^ 64 < 2 ^ 64 := Nat.mod_lt _ (by decide)
  have hne : formatted fmt args ≠ [] ↔ (formatted fmt args).length ≠ 0 := by
    rw [Ne, Ne, List.length_eq_zero_iff]
  rw [hne]
  constructor
  · rintro ⟨hmin, hpos, hgranted, -, hnull, hle, hq⟩
    exact ⟨⟨hmin, by omega, hnull, by omega⟩, hgranted, hq⟩
  · rintro ⟨⟨hmin, hpos, hnull, hsmall⟩, hgranted, hq⟩
    rw [Nat.mod_eq_of_lt hsmall]
    exact ⟨hmin, by omega, hgranted, hmin, hnull, by omega, hq⟩

theorem none_mem_conversion {conv : Conversion} {arg : FormatArg}
    (hk : conv.takes = some arg.kind) : none ∈ conv.pieces arg ↔ arg = .str none := by
  unfold Conversion.pieces
  split
  · rename_i v
    split <;> simp
  · simp
  · simp
  · simp
  · simp
  · rename_i text
    cases text <;> simp
  · simp
  · rename_i hstr _
    refine iff_of_false List.not_mem_nil fun he => ?_
    subst he
    have hs : conv = .s := by cases conv <;> first | rfl | cases hk
    exact hstr none hs rfl

/-- A NULL piece is a NULL argument. -/
theorem none_mem_pieces (hm : args.map FormatArg.kind = wanted fmt) :
    none ∈ formatPieces fmt args ↔ .str none ∈ args := by
  induction fmt, args using formatted.induct with
  | case1 args =>
      obtain rfl := List.map_eq_nil_iff.mp hm
      exact iff_of_false List.not_mem_nil List.not_mem_nil
  | case2 c args =>
      obtain rfl := List.map_eq_nil_iff.mp hm
      simp [formatPieces]
  | case3 c' fmt k arg args hk ih =>
      rw [wanted, if_pos rfl, hk] at hm
      obtain ⟨hkind, hm'⟩ := List.cons.inj hm
      rw [formatPieces_arg hk, List.mem_append, ih hm', none_mem_conversion (hkind ▸ hk), List.mem_cons]
      exact or_congr_left eq_comm
  | case4 c' fmt k hk =>
      rw [wanted, if_pos rfl, hk] at hm
      cases hm
  | case5 c' fmt args hk ih =>
      rw [wanted, if_pos rfl, hk] at hm
      have hplain : none ∉ plainPieces c' := by
        unfold plainPieces
        split <;> simp
      rw [formatPieces_plain hk, List.mem_append, ih hm]
      exact or_iff_right hplain
  | case6 c c' fmt args hc ih =>
      rw [wanted, if_neg hc] at hm
      rw [formatPieces_other hc, List.mem_cons, ih hm]
      exact or_iff_right (by simp)

end Exact

/-- **`str_vformat` returns the text of the format** exactly where that is neither empty nor longer
    than a string can be, and no argument is the most negative number or a NULL string. -/
theorem strVformat_exact (fmt : FormatString) (args : List FormatArg)
    (hm : args.map FormatArg.kind = wanted fmt.chars) :
    Formats fmt.chars args ↔ formatted fmt.chars args ≠ [] ∧
      (formatted fmt.chars args).length < 2 ^ 64 ∧
      ∀ arg ∈ args, arg ≠ .str none ∧ arg ≠ .i64 (BitVec.intMin 64) := by
  have hargs : (∀ arg ∈ args, arg ≠ .str none ∧ arg ≠ .i64 (BitVec.intMin 64)) ↔
      NoneMin args ∧ none ∉ formatPieces fmt.chars args := by
    rw [none_mem_pieces hm]
    constructor
    · intro h
      refine ⟨fun v hv hmin => (h _ hv).2 (by rw [hmin]), fun hin => (h _ hin).1 rfl⟩
    · rintro ⟨hmin, hnull⟩ arg harg
      refine ⟨fun he => hnull (he ▸ harg), fun he => ?_⟩
      subst he
      exact hmin _ harg rfl
  rw [hargs]
  constructor
  · intro h
    obtain ⟨⟨hmin, hne, hnull, hsmall⟩, -⟩ :=
      (wp_strVformat hm _).mp (wp_of_ends (ends_mono (h true) (fun _ _ hq => hq) fun _ he => by
        cases he))
    exact ⟨hne, hsmall, hmin, hnull⟩
  · rintro ⟨hne, hsmall, hmin, hnull⟩ granted
    cases granted with
    | false =>
        rcases wp_or_stops (strVformat false fmt.chars args) () with hret | ⟨e, hstops⟩
        · have hgranted := ((wp_strVformat hm _).mp hret).2.1
          cases hgranted
        · exact (ends_of_stops hstops).mpr rfl
    | true =>
        refine ends_of_wp ((wp_strVformat hm _).mpr ⟨⟨hmin, hne, hnull, hsmall⟩, rfl, ?_⟩)
        obtain ⟨htext, hlength, hcap⟩ := written_eq hsmall
        refine ⟨htext, hlength, hcap, ?_⟩
        rw [wp_formatterApplyV eats_lenFormatter hm, wp_lengthPieces, spelled_formatPieces]
        refine ⟨hmin, BitVec.eq_of_toNat_eq ?_⟩
        rw [hlength]
        exact (congrArg BitVec.toNat (BitVec.zero_add _)).trans (ofNat_toNat_lt hsmall)

/-- `n=%d` -/
def decimalFormat : FormatString :=
  { chars := [chr 'n', chr '=', chr '%', chr 'd'], noNul := by decide }

theorem strVformat_exact_decimal :
    formatted decimalFormat.chars [.i64 (-5)] = [chr 'n', chr '=', chr '-', chr '5'] ∧
      Formats decimalFormat.chars [.i64 (-5)] := by
  refine ⟨by decide, (strVformat_exact decimalFormat [.i64 (-5)] rfl).mpr ⟨by decide, by decide,
    fun arg harg => ?_⟩⟩
  obtain rfl := List.mem_singleton.mp harg
  refine ⟨FormatArg.noConfusion, fun h => ?_⟩
  exact absurd (FormatArg.i64.inj h) (by decide)

/-- The empty format, `%d` of the most negative number, and `a%s` of the NULL string. -/
theorem strVformat_stops : ¬ Formats [] [] ∧
    ¬ Formats [chr '%', chr 'd'] [.i64 (BitVec.intMin 64)] ∧
    ¬ Formats [chr 'a', chr '%', chr 's'] [.str none] := by
  have hstop : ∀ fmt args e, Stops (strVformat true fmt args : Prog Fault Unit Str) () e →
      ¬ Formats fmt args := fun fmt args e hs h => by
    have hgranted := (ends_of_stops hs).mp (h true)
    cases hgranted
  exact ⟨hstop _ _ (.assertion "nmemb > 0") rfl, hstop _ _ (.panic "ubsan") rfl,
    hstop _ _ (.assertion "src != NULL") rfl⟩

end Slightx
