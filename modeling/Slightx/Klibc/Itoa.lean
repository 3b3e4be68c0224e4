/-
  File:      Slightx/Klibc/Itoa.lean
  Subject:   Numbers written out.

  Sources: klibc/algo/conv.c, klibc/mem/str.h.

  The digits come out lowest first and are turned round in place. The loop ends where no digit is
  left, or where the buffer is full and its assertion fails, so it has no more rounds than the
  buffer has bytes.

  * `wp_itoaDigits` -- the digits, lowest first, by induction on the room that is left
  * `text_itoaTurn` -- a text turned round
  * `wp_itoa_spelling` -- every 64-bit number is written out, in every base
  * `wp_itoa` -- its numeral, in bases up to 16
  * `itoa_spells` -- the text read back gives the number, and has no leading zero
-/
import Slightx.Klibc.Core
import Mathlib.Data.Nat.Digits.Lemmas
import Mathlib.Logic.Function.Basic

namespace Slightx

open Lib Function

/-! ## 1. Strings -/

/-- A view of characters; `data` is what its pointer leads to. -/
structure Str where
  data : Nat → U8
  length : Usize
  capacity : Usize
  owned : Bool

/-- The characters of a string. -/
def Str.text (s : Str) : List U8 := (List.range s.length.toNat).map s.data

theorem length_strText (s : Str) : s.text.length = s.length.toNat := by
  unfold Str.text
  rw [List.length_map, List.length_range]

/-- Behind the text of `out'` the buffer is as it was. -/
def Str.KeepsBehind (out out' : Str) : Prop :=
  ∀ i, out'.length.toNat ≤ i → out'.data i = out.data i

/-- `out->data[offset] = c` -/
def Str.put (out : Str) (offset : Nat) (c : U8) : Str :=
  { out with data := update out.data offset c }

/-! ## 2. The function -/

/-- `"zyxwvutsrqponmlkjihgfedcba987654321" "0123456789abcdefghijklmnopqrstuvwxyz"` -/
def alphabet : List U8 :=
  [0x7a, 0x79, 0x78, 0x77, 0x76, 0x75, 0x74, 0x73, 0x72, 0x71, 0x70, 0x6f, 0x6e, 0x6d, 0x6c, 0x6b,
    0x6a, 0x69, 0x68, 0x67, 0x66, 0x65, 0x64, 0x63, 0x62, 0x61, 0x39, 0x38, 0x37, 0x36, 0x35, 0x34,
    0x33, 0x32, 0x31, 0x30, 0x31, 0x32, 0x33, 0x34, 0x35, 0x36, 0x37, 0x38, 0x39, 0x61, 0x62, 0x63,
    0x64, 0x65, 0x66, 0x67, 0x68, 0x69, 0x6a, 0x6b, 0x6c, 0x6d, 0x6e, 0x6f, 0x70, 0x71, 0x72, 0x73,
    0x74, 0x75, 0x76, 0x77, 0x78, 0x79, 0x7a]

/-- `for (offset = 0; n > 0; n /= base, ++offset, ++out->length)`; `left` is
    `out->capacity - offset`. -/
def itoaDigits (base : U64) : (left offset : Nat) → (n : U64) → Prog Fault Str Unit
  | 0, _, n => if n = 0 then pure () else throw (.assertion "offset < out->capacity")
  | left + 1, offset, n =>
      if n = 0 then pure ()
      else do
        modify fun out => out.put offset (alphabet.getD (35 + n % base).toNat 0)
        modify fun out => { out with length := out.length + 1 }
        itoaDigits base left (offset + 1) (n / base)

/-- `out->data[offset]` and `out->data[swap_with]` change places. -/
def Str.swap (out : Str) (offset : Nat) : Str :=
  let swapWith := out.length.toNat - offset - 1
  (out.put offset (out.data swapWith)).put swapWith (out.data offset)

/-- `for (offset = 0; offset < out->length / 2; ++offset)` -/
def itoaTurn (out : Str) : Str := runUp (out.length.toNat / 2) (fun offset out => out.swap offset) out

/-- The digits, lowest first. -/
def itoaWrite (n : U64) (base : Int) : Prog Fault Str Unit := do
  let out ← get
  if n = 0 then do
    assertRelease (0 < out.capacity) "out->capacity > 0"
    set { out.put 0 0x30 with length := 1 }
  else itoaDigits (BitVec.ofInt 64 base) out.capacity.toNat 0 n

def itoa (n : U64) (base : Int) : Prog Fault Str Unit :=
  if base < 2 ∨ 36 < base then modify fun out => { out with length := 0 }
  else do
    itoaWrite n base
    modify itoaTurn

/-! ## 3. The digits -/

def digitByte (c : Char) : U8 := BitVec.ofNat 8 c.toNat

/-- **The numeral of `n`.** -/
def numeral (base n : Nat) : List U8 := (Nat.toDigits base n).map digitByte

/-- The digits of a number that is not zero, lowest first. -/
def lowDigits (base n : Nat) : List U8 := if n = 0 then [] else (numeral base n).reverse

/-- The character of a digit: `0` to `9`, and `a` to `z` from 10 on. -/
def asciiDigit (d : Nat) : U8 := BitVec.ofNat 8 (if d < 10 then 0x30 + d else 0x57 + d)

/-- **`n` written out in base `base`**, the highest digit first. -/
def spelling (base n : Nat) : List U8 :=
  if n = 0 then [0x30] else ((Nat.digits base n).map asciiDigit).reverse

theorem alphabet_digit : ∀ d < 36, alphabet.getD (35 + d) 0 = asciiDigit d := by decide

theorem digitChar_ascii : ∀ d < 16, digitByte (Nat.digitChar d) = asciiDigit d := by decide

section Digits

variable {base n : Nat}

theorem lowDigits_step (hb : 1 < base) (hn : n ≠ 0) :
    lowDigits base n = digitByte (Nat.digitChar (n % base)) :: lowDigits base (n / base) := by
  unfold lowDigits numeral
  rw [if_neg hn, Nat.toDigits_eq_if hb]
  by_cases hlt : n < base
  · rw [if_pos hlt, Nat.div_eq_of_lt hlt, if_pos rfl, Nat.mod_eq_of_lt hlt]
    rfl
  · have hdiv : n / base ≠ 0 := by
      rw [Ne, Nat.div_eq_zero_iff]
      omega
    rw [if_neg hlt, if_neg hdiv, List.map_append, List.reverse_append]
    rfl

/-- Up to base 16 the digits are those of the numeral. -/
theorem lowDigits_eq (hb : 1 < base) (hb' : base ≤ 16) :
    lowDigits base n = (Nat.digits base n).map asciiDigit := by
  induction n using Nat.strong_induction_on with
  | h n ih =>
      rcases Nat.eq_zero_or_pos n with rfl | hn
      · rw [lowDigits, if_pos rfl, Nat.digits_zero, List.map_nil]
      · have hmod : n % base < 16 := Nat.lt_of_lt_of_le (Nat.mod_lt _ (by omega)) hb'
        rw [lowDigits_step hb (by omega), Nat.digits_def' hb hn, List.map_cons,
          ih _ (Nat.div_lt_self hn hb), digitChar_ascii _ hmod]

theorem spelling_eq_numeral (hb : 1 < base) (hb' : base ≤ 16) :
    spelling base n = numeral base n := by
  unfold spelling
  rw [← lowDigits_eq hb hb']
  unfold lowDigits
  split
  · rename_i hn
    rw [hn]
    unfold numeral
    rw [Nat.toDigits_zero]
    rfl
  · rw [List.reverse_reverse]

end Digits

section Loops

variable {out : Str} {base : U64} {left offset : Nat} {n : U64} {c : U8}

/-- A character behind the text. -/
theorem text_push (h : out.length.toNat + 1 < 2 ^ 64) :
    { out.put out.length.toNat c with length := out.length + 1 : Str }.text = out.text ++ [c] := by
  have hlen : (out.length + 1).toNat = out.length.toNat + 1 := by
    rw [BitVec.toNat_add]
    exact Nat.mod_eq_of_lt h
  have hold : (List.range out.length.toNat).map (update out.data out.length.toNat c) =
      (List.range out.length.toNat).map out.data := by
    refine List.map_congr_left fun i hi => update_of_ne ?_ _ _
    exact Nat.ne_of_lt (List.mem_range.mp hi)
  show (List.range (out.length + 1).toNat).map (update out.data out.length.toNat c) =
    (List.range out.length.toNat).map out.data ++ [c]
  rw [hlen, List.range_succ, List.map_append, List.map_singleton, update_self, hold]

/-- **The loop writes the digits behind the text.** -/
theorem wp_itoaDigits (hb : 1 < base.toNat) (hb' : base.toNat ≤ 36)
    (hfit : (Nat.digits base.toNat n.toNat).length ≤ left)
    (hoffset : out.length.toNat = offset) (hroom : offset + left < 2 ^ 64) :
    wp (itoaDigits base left offset n) out fun _ out' =>
      out'.text = out.text ++ (Nat.digits base.toNat n.toNat).map asciiDigit ∧
        out.KeepsBehind out' := by
  induction left generalizing out offset n with
  | zero =>
      have hzero : n.toNat = 0 :=
        Nat.digits_eq_nil_iff_eq_zero.mp (List.length_eq_zero_iff.mp (Nat.le_zero.mp hfit))
      have hn0 : n = 0 := BitVec.eq_of_toNat_eq hzero
      rw [itoaDigits, if_pos hn0, wp_pure, hzero, Nat.digits_zero, List.map_nil, List.append_nil]
      exact ⟨rfl, fun _ _ => rfl⟩
  | succ left ih =>
      rw [itoaDigits]
      by_cases hn0 : n = 0
      · have hzero : n.toNat = 0 := by rw [hn0]; rfl
        rw [if_pos hn0, wp_pure, hzero, Nat.digits_zero, List.map_nil, List.append_nil]
        exact ⟨rfl, fun _ _ => rfl⟩
      · have hpos : 0 < n.toNat :=
          Nat.pos_of_ne_zero fun h => hn0 (BitVec.eq_of_toNat_eq h)
        have hmod : n.toNat % base.toNat < 36 :=
          Nat.lt_of_lt_of_le (Nat.mod_lt _ (by omega)) hb'
        have hindex : (35 + n % base).toNat = 35 + n.toNat % base.toNat := by
          rw [BitVec.toNat_add, BitVec.toNat_umod]
          exact Nat.mod_eq_of_lt (by show 35 + _ < _; omega)
        have hlen : (out.length + 1).toNat = offset + 1 := by
          rw [BitVec.toNat_add, hoffset]
          exact Nat.mod_eq_of_lt (by show offset + 1 < _; omega)
        rw [Nat.digits_def' hb hpos, List.length_cons] at hfit
        have hdiv : (Nat.digits base.toNat (n / base).toNat).length ≤ left := by
          rw [BitVec.toNat_udiv]
          exact Nat.le_of_succ_le_succ hfit
        rw [if_neg hn0, wp_bind, wp_modify, wp_bind, wp_modify, hindex, alphabet_digit _ hmod,
          Nat.digits_def' hb hpos, List.map_cons]
        refine wp_mono (ih hdiv hlen (by omega)) fun _ out' h' => ?_
        subst hoffset
        obtain ⟨htext, hkeeps⟩ := h'
        have hpush := @text_push out (asciiDigit (n.toNat % base.toNat)) (by omega)
        change Str.text _ = _ at hpush
        have hall : out'.text = out.text ++ asciiDigit (n.toNat % base.toNat) ::
            (Nat.digits base.toNat (n.toNat / base.toNat)).map asciiDigit := by
          rw [htext, BitVec.toNat_udiv, List.append_cons, ← hpush]
          rfl
        refine ⟨hall, fun i hi => ?_⟩
        -- the text now ends behind the character that was written
        have hlong := congrArg List.length hall
        rw [length_strText, List.length_append, length_strText, List.length_cons] at hlong
        rw [hkeeps i hi]
        exact update_of_ne (by omega) _ _

end Loops

/-! ## 4. The digits turned round -/

/-- After `k` rounds the outer `k` characters on both sides have changed places. -/
theorem runUp_swap (out : Str) {k : Nat} (hk : 2 * k ≤ out.length.toNat) :
    (runUp k (fun offset out => out.swap offset) out).length = out.length ∧
      out.KeepsBehind (runUp k (fun offset out => out.swap offset) out) ∧
      ∀ i, i < out.length.toNat → (runUp k (fun offset out => out.swap offset) out).data i =
        if i < k ∨ out.length.toNat - k ≤ i then out.data (out.length.toNat - 1 - i)
        else out.data i := by
  induction k with
  | zero =>
      refine ⟨rfl, fun _ _ => rfl, fun i hi => ?_⟩
      rw [if_neg (by omega)]
      rfl
  | succ k ih =>
      obtain ⟨hlen, hkeeps, hdata⟩ := ih (by omega)
      rw [runUp]
      generalize runUp k (fun offset out => out.swap offset) out = r at hlen hdata hkeeps ⊢
      refine ⟨hlen, fun i hi => ?_, fun i hi => ?_⟩
      · have hi' : r.length.toNat ≤ i := hi
        refine (update_of_ne ?_ _ _).trans ((update_of_ne ?_ _ _).trans (hkeeps i hi'))
        all_goals rw [hlen] at *
        all_goals omega
      have hk' : r.data k = out.data k := by
        rw [hdata k (by omega), if_neg (by omega)]
      have hother : r.data (out.length.toNat - k - 1) = out.data (out.length.toNat - k - 1) := by
        rw [hdata _ (by omega), if_neg (by omega)]
      show update (update r.data k (r.data (r.length.toNat - k - 1))) (r.length.toNat - k - 1)
        (r.data k) i = _
      rw [hlen, hk', hother]
      rcases eq_or_ne i (out.length.toNat - k - 1) with rfl | hne
      · rw [update_self, if_pos (by omega)]
        congr 1
        omega
      · rw [update_of_ne hne]
        rcases eq_or_ne i k with rfl | hne'
        · rw [update_self, if_pos (by omega)]
          congr 1
          omega
        · rw [update_of_ne hne', hdata i hi]
          by_cases hin : i < k ∨ out.length.toNat - k ≤ i
          · rw [if_pos hin, if_pos (by omega)]
          · rw [if_neg hin, if_neg (by omega)]

/-- **A text turned round.** -/
theorem text_itoaTurn (out : Str) : (itoaTurn out).text = out.text.reverse := by
  have hhalf : 2 * (out.length.toNat / 2) ≤ out.length.toNat := by omega
  obtain ⟨hlen, -, hdata⟩ := runUp_swap out hhalf
  refine List.ext_getElem ?_ fun i hi _ => ?_
  · rw [List.length_reverse, length_strText, length_strText]
    exact congrArg BitVec.toNat hlen
  · have hi' : i < out.length.toNat := by
      rw [length_strText] at hi
      exact Nat.lt_of_lt_of_eq hi (congrArg BitVec.toNat hlen)
    have hget : (itoaTurn out).text[i] = (itoaTurn out).data i := by simp [Str.text]
    have hget' : out.text.reverse[i] = out.data (out.length.toNat - 1 - i) := by
      simp [Str.text]
    rw [hget, hget']
    refine (hdata i hi').trans ?_
    split
    · rfl
    · congr 1
      omega

theorem keepsBehind_itoaTurn {out out' : Str} (h : out.KeepsBehind out') :
    out.KeepsBehind (itoaTurn out') := by
  obtain ⟨hlen, hkeeps, -⟩ := runUp_swap out' (k := out'.length.toNat / 2) (by omega)
  intro i hi
  have hi' : out'.length.toNat ≤ i :=
    Nat.le_trans (Nat.le_of_eq (congrArg BitVec.toNat hlen).symm) hi
  exact (hkeeps i hi).trans (h i hi')

/-- **Every number is written out in every base**, in a buffer with room for its text. -/
theorem wp_itoa_spelling {n : U64} {base : Int} {out : Str} (hb : 2 ≤ base) (hb' : base ≤ 36)
    (hlen : out.length = 0) (hroom : (spelling base.toNat n.toNat).length ≤ out.capacity.toNat) :
    wp (itoa n base) out fun _ out' => out'.text = spelling base.toNat n.toNat ∧
      out.KeepsBehind out' := by
  have hbase : (BitVec.ofInt 64 base).toNat = base.toNat := by
    rw [BitVec.toNat_ofInt]
    omega
  unfold itoa
  rw [if_neg (by omega), wp_bind]
  unfold itoaWrite
  rw [wp_bind, wp_get]
  by_cases hn : n = 0
  · have hpos : 0 < out.capacity := by
      rw [hn] at hroom
      exact hroom
    rw [if_pos hn, wp_bind, wp_assertRelease, wp_set, wp_modify, hn]
    refine ⟨hpos, ?_, keepsBehind_itoaTurn fun i hi => update_of_ne ?_ _ _⟩
    · rw [text_itoaTurn]
      show [update out.data 0 0x30 0].reverse = [0x30]
      rw [update_self]
      rfl
    · have hone : (1 : Usize).toNat = 1 := rfl
      have hi' : (1 : Usize).toNat ≤ i := hi
      omega
  · have hnz : n.toNat ≠ 0 := fun h => hn (BitVec.eq_of_toNat_eq h)
    have hspell : spelling base.toNat n.toNat =
        ((Nat.digits base.toNat n.toNat).map asciiDigit).reverse := if_neg hnz
    have hfit : (Nat.digits (BitVec.ofInt 64 base).toNat n.toNat).length ≤ out.capacity.toNat := by
      rw [hspell, List.length_reverse, List.length_map] at hroom
      rw [hbase]
      exact hroom
    have hzero : out.length.toNat = 0 := by rw [hlen]; rfl
    have hempty : out.text = [] := by
      unfold Str.text
      rw [hzero]
      rfl
    rw [if_neg hn]
    refine wp_mono (wp_itoaDigits (by omega) (by omega) hfit hzero
      (by rw [Nat.zero_add]; exact out.capacity.isLt)) fun _ out' h' => ?_
    obtain ⟨htext, hkeeps⟩ := h'
    rw [wp_modify, text_itoaTurn, htext, hempty, hbase, hspell, List.nil_append]
    exact ⟨rfl, keepsBehind_itoaTurn hkeeps⟩

/-- No number has more digits than bits. -/
theorem length_spelling_le {base : Nat} (hb : 2 ≤ base) (n : U64) :
    (spelling base n.toNat).length ≤ 64 := by
  unfold spelling
  split
  · decide
  · rw [List.length_reverse, List.length_map, Nat.digits_length_le_iff hb]
    calc n.toNat < 2 ^ 64 := n.isLt
      _ ≤ base ^ 64 := Nat.pow_le_pow_left hb _

/-- **Every number gets its numeral**, in a buffer with room for the digits. -/
theorem wp_itoa {n : U64} {base : Int} {out : Str} (hb : 2 ≤ base) (hb' : base ≤ 16)
    (hlen : out.length = 0) (hroom : 64 ≤ out.capacity.toNat) :
    wp (itoa n base) out fun _ out' => out'.text = numeral base.toNat n.toNat := by
  have hlong := Nat.le_trans (@length_spelling_le base.toNat (by omega) n) hroom
  refine wp_mono (wp_itoa_spelling hb (by omega) hlen hlong) fun _ out' h' => ?_
  rw [h'.1, spelling_eq_numeral (by omega) (by omega)]

/-! ## 5. The text read back -/

/-- The digit that a character stands for. -/
def digitValue (c : U8) : Nat := if c.toNat < 0x3a then c.toNat - 0x30 else c.toNat - 0x57

/-- The number that a text stands for, the highest digit first. -/
def readBack (base : Nat) (text : List U8) : Nat :=
  text.foldl (fun v c => v * base + digitValue c) 0

/-- **The text of `n` in base `base`**: it reads back as `n`, as no other number's does, and a zero
    in front is the text of 0. -/
structure Spells (base n : Nat) (text : List U8) : Prop where
  digits : text = spelling base n
  back : readBack base text = n
  leading : text.head? = some 0x30 → n = 0 ∧ text = [0x30]
  distinct : ∀ m, m ≠ n → spelling base m ≠ text

section Back

variable {base n : Nat}

theorem digitValue_ascii : ∀ d < 36, digitValue (asciiDigit d) = d := by decide

theorem asciiDigit_zero : ∀ d < 36, asciiDigit d = 0x30 → d = 0 := by decide

theorem readBack_spelling (hb : 2 ≤ base) (hb' : base ≤ 36) :
    readBack base (spelling base n) = n := by
  unfold spelling readBack
  split
  · rename_i hn
    rw [hn, List.foldl_cons, List.foldl_nil, Nat.zero_mul]
    rfl
  · rw [List.foldl_reverse, List.foldr_map]
    refine Eq.trans ?_ (Nat.ofDigits_digits base n)
    rw [Nat.ofDigits_eq_foldr]
    refine List.foldr_ext _ _ _ fun d hd v => ?_
    rw [digitValue_ascii d (Nat.lt_of_lt_of_le (Nat.digits_lt_base hb hd) hb'), Nat.mul_comm,
      Nat.add_comm]
    rfl

/-- The first character is the one of the highest digit. -/
theorem head_spelling (hb : 2 ≤ base) (hb' : base ≤ 36) (hn : n ≠ 0) :
    (spelling base n).head? ≠ some 0x30 := by
  have hne : Nat.digits base n ≠ [] := Nat.digits_ne_nil_iff_ne_zero.mpr hn
  have hlast := Nat.getLast_digit_ne_zero base hn
  unfold spelling
  rw [if_neg hn, List.head?_reverse, List.getLast?_map, List.getLast?_eq_some_getLast hne]
  intro h
  have hin := Nat.digits_lt_base hb (List.getLast_mem hne)
  exact hlast (asciiDigit_zero _ (Nat.lt_of_lt_of_le hin hb') (Option.some.inj h))

theorem spells_spelling (hb : 2 ≤ base) (hb' : base ≤ 36) : Spells base n (spelling base n) := by
  refine ⟨rfl, readBack_spelling hb hb', fun h => ?_, fun m hm h => hm ?_⟩
  · have hn : n = 0 := Classical.byContradiction fun hn => head_spelling hb hb' hn h
    rw [hn]
    exact ⟨rfl, rfl⟩
  · calc m = readBack base (spelling base m) := (readBack_spelling hb hb').symm
      _ = readBack base (spelling base n) := by rw [h]
      _ = n := readBack_spelling hb hb'

end Back

/-- **`itoa` writes every number in every base**, if the buffer has room for its digits, and
    nothing behind them; 65 characters are always enough. -/
theorem itoa_spells {n : U64} {base : Int} {out : Str} (hb : 2 ≤ base) (hb' : base ≤ 36)
    (hlen : out.length = 0) (hroom : (spelling base.toNat n.toNat).length ≤ out.capacity.toNat) :
    wp (itoa n base) out (fun _ out' => Spells base.toNat n.toNat out'.text ∧
      out.KeepsBehind out') ∧
      ∀ m : U64, (spelling base.toNat m.toNat).length ≤ 65 := by
  refine ⟨wp_mono (wp_itoa_spelling hb hb' hlen hroom) fun _ out' h' => ?_, fun m => ?_⟩
  · rw [h'.1]
    exact ⟨spells_spelling (by omega) (by omega), h'.2⟩
  · exact Nat.le_trans (length_spelling_le (by omega) m) (by decide)

/-- The largest number in base 36, in the buffer that just holds it. -/
theorem itoa_spells_full :
    wp (itoa (BitVec.ofNat 64 (2 ^ 64 - 1)) 36) ⟨fun _ => 0x2a, 0, 13, true⟩ fun _ out =>
      Spells 36 (2 ^ 64 - 1) out.text ∧ ∀ i, out.length.toNat ≤ i → out.data i = 0x2a :=
  (@itoa_spells (BitVec.ofNat 64 (2 ^ 64 - 1)) 36 ⟨fun _ => 0x2a, 0, 13, true⟩ (by decide)
    (by decide) rfl (by decide +kernel)).1

end Slightx
