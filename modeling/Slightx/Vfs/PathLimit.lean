/-
  File:      Slightx/Vfs/PathLimit.lean
  Subject:   When `vfs_path_normalize` says that the canonical form is too long.

  Source: libs/vfs/src/path.c.

  A canonical form of `VFS_PATH_MAX` characters is too long. The scan gives up where its output
  would reach that length, and the output may end in a slash that is stripped at the end: a path of
  the full length with nothing to leave out but its last slash is refused, and the same path without
  the slash is not. The copy that is dead when it is read (Slightx/Vfs/Path.lean) is another reason:
  it can hide "..", or show it.

  * `length_keep` -- what a component adds to the canonical form
  * `canonical_max` -- the paths whose canonical form is too long
  * `vfsPathNormalize_null_exact` -- the paths that are refused exactly when they should be
  * `vfsPathNormalize_null_kept` -- where the copy keeps its bytes, only the last slash matters
-/
import Slightx.Vfs.Path

namespace Slightx

open Lib

/-! ## 1. The length of the canonical form -/

/-- A piece that is kept as it is. -/
def Plainly (c : List U8) : Prop := c ≠ [] ∧ c ≠ [dot] ∧ c ≠ [dot, dot]

section Lengths

variable {kept : List (List U8)} {c : List U8} {path : VfsPath} {left : Nat → Nat → U8}

theorem length_rendered_cons (cs : List (List U8)) :
    (rendered slash (c :: cs)).length = 1 + c.length + (rendered slash cs).length := by
  show (slash :: (c ++ rendered slash cs)).length = _
  rw [List.length_cons, List.length_append]
  omega

theorem length_rendered_snoc :
    (rendered slash (kept ++ [c])).length = (rendered slash kept).length + 1 + c.length := by
  rw [rendered_snoc, List.length_append, List.length_cons]
  omega

theorem length_dropLast : (rendered slash kept.dropLast).length ≤ (rendered slash kept).length := by
  rcases List.eq_nil_or_concat kept with rfl | ⟨l, d, rfl⟩
  · exact Nat.le_refl _
  · rw [List.concat_eq_append, List.dropLast_concat, length_rendered_snoc]
    omega

/-- One piece adds its length at most, and all of it if it is kept. -/
theorem length_keep :
    (rendered slash (keep kept c)).length ≤ (rendered slash kept).length + 1 + c.length ∧
      ((rendered slash (keep kept c)).length = (rendered slash kept).length + 1 + c.length ↔
        Plainly c) := by
  have hdrop := @length_dropLast kept
  unfold keep Plainly
  split
  · rename_i h
    refine ⟨by omega, fun he => by omega, fun hp => ?_⟩
    rcases h with h | h
    · exact absurd h hp.1
    · exact absurd h hp.2.1
  · rename_i h
    obtain ⟨hnil, hdot⟩ := not_or.mp h
    split
    · rename_i hparent
      exact ⟨by omega, fun he => by omega, fun hp => absurd hparent hp.2.2⟩
    · rename_i hparent
      rw [length_rendered_snoc]
      exact ⟨Nat.le_refl _, fun _ => ⟨hnil, hdot, hparent⟩, fun _ => rfl⟩

/-- **All pieces add their lengths exactly if each of them is kept.** -/
theorem length_foldl_keep (cs : List (List U8)) :
    (rendered slash (cs.foldl keep kept)).length ≤
        (rendered slash kept).length + (rendered slash cs).length ∧
      ((rendered slash (cs.foldl keep kept)).length =
          (rendered slash kept).length + (rendered slash cs).length ↔ ∀ c ∈ cs, Plainly c) := by
  induction cs generalizing kept with
  | nil => exact ⟨Nat.le_refl _, fun _ c hc => absurd hc List.not_mem_nil, fun _ => rfl⟩
  | cons c cs ih =>
      obtain ⟨hle, hiff⟩ := @length_keep kept c
      obtain ⟨hle', hiff'⟩ := @ih (keep kept c)
      rw [List.foldl_cons, length_rendered_cons, List.forall_mem_cons, ← hiff, ← hiff']
      omega

/-- The pieces of a path behind its first slash. -/
def pieces (bytes : List U8) : List (List U8) := (bytes.splitOn slash).tail

theorem splitOn_root (h : Rooted path) : path.bytes.splitOn slash = [] :: pieces path.bytes ∧
    rendered slash (pieces path.bytes) = path.bytes := by
  obtain ⟨t, ht⟩ := bytes_root h
  unfold pieces
  rw [ht, splitOn_sep]
  exact ⟨rfl, rendered_splitOn t⟩

/-- **A canonical form is too long** for a path of the full length whose pieces are all kept. -/
theorem canonical_max (h : Rooted path) : VFS_PATH_MAX - 1 < (canonical path.bytes).length ↔
    path.bytes.length = VFS_PATH_MAX ∧ ∀ c ∈ pieces path.bytes, Plainly c := by
  have hm : VFS_PATH_MAX = 4096 := rfl
  obtain ⟨hsplit, hrendered⟩ := splitOn_root h
  obtain ⟨hle, hiff⟩ := @length_foldl_keep [] (pieces path.bytes)
  have hmax : path.bytes.length ≤ VFS_PATH_MAX := by
    rw [length_bytes]
    exact h.max
  have hkeep : keep [] [] = [] := rfl
  have hnil : (rendered slash ([] : List (List U8))).length = 0 := rfl
  rw [hrendered, hnil, Nat.zero_add] at hle hiff
  rw [canonical, hsplit, List.foldl_cons, hkeep, ← hiff]
  unfold finished
  split
  · rename_i hkept
    rw [hkept, hnil, List.length_singleton]
    omega
  · omega

/-- A piece is plain where the path has no pair of slashes, no "." and no "..", and ends in none. -/
theorem pieces_plainly : (∀ c ∈ pieces path.bytes, Plainly c) ↔
    (¬ [slash, slash] <:+: path.bytes ∧ path.bytes.getLast? ≠ some slash) ∧
      [dot] ∉ pieces path.bytes ∧ [dot, dot] ∉ pieces path.bytes := by
  have hempty := @nil_mem_splitOn U8 _ slash path.bytes
  rw [← not_or, ← hempty]
  unfold Plainly pieces
  constructor
  · intro hall
    exact ⟨fun hin => (hall _ hin).1 rfl, fun hin => (hall _ hin).2.1 rfl,
      fun hin => (hall _ hin).2.2 rfl⟩
  · rintro ⟨h1, h2, h3⟩ c hc
    exact ⟨fun he => h1 (he ▸ hc), fun he => h2 (he ▸ hc), fun he => h3 (he ▸ hc)⟩

end Lengths

theorem bytes_pathOf {chars : List U8} (h : chars.length ≤ VFS_PATH_MAX) :
    (pathOf chars).bytes = chars := by
  have hm : VFS_PATH_MAX = 4096 := rfl
  have hlen : (pathOf chars).length.toNat = chars.length := ofNat_toNat_lt (by omega)
  refine List.ext_getElem (by rw [length_bytes, hlen]) fun i hi hi' => ?_
  have hat := @bytes_at (pathOf chars) i (by omega)
  rw [List.getElem?_eq_getElem hi, VfsPath.char, dif_pos (by omega)] at hat
  exact (Option.some.inj hat).trans (List.getElem_eq_getD 0).symm

theorem rooted_pathOf {chars : List U8} (h : chars.length < VFS_PATH_MAX) :
    Rooted (pathOf (slash :: chars)) := by
  have hm : VFS_PATH_MAX = 4096 := rfl
  have hlen : (pathOf (slash :: chars)).length.toNat = chars.length + 1 :=
    ofNat_toNat_lt (by rw [List.length_cons]; omega)
  exact ⟨by omega, by omega, rfl⟩

/-! ## 2. Main results -/

/-- What the function owes for a path, where the dead copies hold `left`: the null path is returned
    exactly if the canonical form is too long. -/
def Refuses (path : VfsPath) (left : Nat → Nat → U8) : Prop :=
  wp (vfsPathNormalize path left) scanStart fun res _ =>
    res.length = 0 ↔ VFS_PATH_MAX - 1 < (canonical path.bytes).length

section Exact

variable {path : VfsPath} {left : Nat → Nat → U8}

theorem refuses_iff (h : Rooted path) : Refuses path left ↔
    (walkTokens (leftParent left) ⟨[], false⟩ (tokens slash 0 path.bytes) = none ↔
      VFS_PATH_MAX - 1 < (canonical path.bytes).length) := by
  have hrun := wp_vfsPathNormalize h left
  cases hw : walkTokens (leftParent left) ⟨[], false⟩ (tokens slash 0 path.bytes) with
  | none =>
      rw [hw] at hrun
      constructor
      · intro hr
        obtain ⟨res, s', -, hlong, hnull⟩ := wp_and hr hrun
        exact ⟨fun _ => hlong.mp hnull, fun _ => rfl⟩
      · exact fun hl => wp_mono hrun fun res s' hnull => ⟨fun _ => hl.mp rfl, fun _ => hnull⟩
  | some k =>
      rw [hw] at hrun
      constructor
      · intro hr
        obtain ⟨res, s', -, hlong, hres⟩ := wp_and hr hrun
        exact ⟨fun hk => (Option.some_ne_none k hk).elim, fun hl => absurd (hlong.mpr hl) hres.1⟩
      · exact fun hl => wp_mono hrun fun res s' hres =>
          ⟨fun h0 => absurd h0 hres.1, fun hlong => (Option.some_ne_none k (hl.mpr hlong)).elim⟩

/-- The first piece is empty, so a component is one of those behind it. -/
theorem mem_pieces (h : Rooted path) {c : List U8} (hc : c ≠ []) :
    c ∈ path.bytes.splitOn slash ↔ c ∈ pieces path.bytes := by
  rw [(splitOn_root h).1, List.mem_cons]
  exact or_iff_right hc

theorem names_dot : (∀ p ∈ names slash 0 path.bytes, p.2 ≠ [dot]) ↔
    [dot] ∉ path.bytes.splitOn slash := by
  rw [mem_names (List.cons_ne_nil _ _), List.mem_map]
  constructor
  · rintro hall ⟨p, hp, he⟩
    exact hall p hp he
  · exact fun hno p hp he => hno ⟨p, hp, he⟩

/-- The paths refused, whatever the copies hold. -/
theorem canonical_too_long (h : Rooted path) : VFS_PATH_MAX - 1 < (canonical path.bytes).length ↔
    path.bytes.length = VFS_PATH_MAX ∧ ¬ [slash, slash] <:+: path.bytes ∧
      path.bytes.getLast? ≠ some slash ∧ [dot] ∉ path.bytes.splitOn slash ∧
      [dot, dot] ∉ path.bytes.splitOn slash := by
  rw [canonical_max h, pieces_plainly, mem_pieces h (List.cons_ne_nil _ _),
    mem_pieces h (List.cons_ne_nil _ _), and_assoc]

/-- **`vfs_path_normalize` refuses exactly the paths whose canonical form is too long**, whatever
    the copies hold, for a path below the full length or with an empty component or a "." in it,
    and for one without a component of two characters and without a slash at its end. -/
theorem vfsPathNormalize_null_exact (h : Rooted path) : (∀ left, Refuses path left) ↔
    path.bytes.length < VFS_PATH_MAX ∨ [slash, slash] <:+: path.bytes ∨
      [dot] ∈ path.bytes.splitOn slash ∨
      ((∀ c ∈ path.bytes.splitOn slash, c.length ≠ 2) ∧ path.bytes.getLast? ≠ some slash) := by
  have hmax : path.bytes.length ≤ VFS_PATH_MAX := by
    rw [length_bytes]
    exact h.max
  simp only [refuses_iff h, walkTokens_start_none h, canonical_too_long h]
  constructor
  · intro hall
    by_contra hnot
    simp only [not_or] at hnot
    obtain ⟨hlen, hslash, hdot, hrest⟩ := hnot
    have hfull : path.bytes.length = VFS_PATH_MAX := by omega
    have hnames := names_dot.mpr hdot
    -- copies that show no ".." make the path too long
    have hlong := (hall fun _ _ => slash).mp ⟨hfull, hslash, fun p hp => ⟨hnames p hp,
      fun h2 => absurd h2.2 (by simp [leftParent, slash, dot])⟩⟩
    refine hrest ⟨fun c hc h2 => ?_, hlong.2.2.1⟩
    -- copies that show nothing but ".." do not
    have hne : c ≠ [] := fun he => by rw [he] at h2; cases h2
    obtain ⟨p, hp, rfl⟩ := List.mem_map.mp ((mem_names hne).mp hc)
    exact (((hall fun _ _ => dot).mpr hlong).2.2 p hp).2 ⟨h2, by simp [leftParent]⟩
  · intro hcond left
    have hiff : (∀ p ∈ names slash 0 path.bytes,
        p.2 ≠ [dot] ∧ ¬ (p.2.length = 2 ∧ leftParent left p.1 = true)) →
        [dot] ∉ path.bytes.splitOn slash := fun hn => names_dot.mp fun p hp => (hn p hp).1
    rcases hcond with hlen | hslash | hdot | ⟨htwo, hlast⟩
    · exact ⟨fun hn => absurd hn.1 (by omega), fun hl => absurd hl.1 (by omega)⟩
    · exact ⟨fun hn => absurd hslash hn.2.1, fun hl => absurd hslash hl.2.1⟩
    · exact ⟨fun hn => absurd hdot (hiff hn.2.2), fun hl => absurd hdot hl.2.2.2.1⟩
    · constructor
      · rintro ⟨hfull, hslash, hn⟩
        exact ⟨hfull, hslash, hlast, hiff hn, fun hp => htwo _ hp rfl⟩
      · rintro ⟨hfull, hslash, -, hdot, -⟩
        refine ⟨hfull, hslash, fun p hp => ⟨names_dot.mpr hdot p hp, fun h2 => ?_⟩⟩
        exact htwo p.2 ((mem_names (names_ok p hp).1).mpr (List.mem_map_of_mem hp)) h2.1

/-- **Where the copies keep their bytes**, a path is refused without need exactly if it has the full
    length and there is nothing to leave out of it but a slash at its end. -/
theorem vfsPathNormalize_null_kept (h : Rooted path)
    (hleft : ∀ start i, i < path.length.toNat → left start i = path.char i) :
    Refuses path left ↔ ¬ (path.bytes.length = VFS_PATH_MAX ∧ ¬ [slash, slash] <:+: path.bytes ∧
      path.bytes.getLast? = some slash ∧ [dot] ∉ path.bytes.splitOn slash ∧
      [dot, dot] ∉ path.bytes.splitOn slash) := by
  have htruth : ∀ p ∈ names slash 0 path.bytes,
      ¬ (p.2.length = 2 ∧ leftParent left p.1 = true) ↔ p.2 ≠ [dot, dot] := by
    intro p hp
    refine not_congr ⟨fun h2 => ?_, fun he => ?_⟩
    all_goals have hend := names_end 0 path.bytes p hp
    all_goals rw [length_bytes, Nat.zero_add] at hend
    · have hv := h2.2
      rw [leftParent, hleft p.1 _ (by omega), hleft p.1 _ (by omega)] at hv
      exact (char_truth p hp h2.1).mp hv
    · have hlen : p.2.length = 2 := by rw [he]; rfl
      rw [leftParent, hleft p.1 _ (by omega), hleft p.1 _ (by omega)]
      exact ⟨hlen, (char_truth p hp hlen).mpr he⟩
  have hnames : (∀ p ∈ names slash 0 path.bytes,
      p.2 ≠ [dot] ∧ ¬ (p.2.length = 2 ∧ leftParent left p.1 = true)) ↔
      [dot] ∉ path.bytes.splitOn slash ∧ [dot, dot] ∉ path.bytes.splitOn slash := by
    rw [← names_dot, mem_names (List.cons_ne_nil _ _), List.mem_map]
    constructor
    · intro hall
      refine ⟨fun p hp => (hall p hp).1, fun hin => ?_⟩
      obtain ⟨p, hp, he⟩ := hin
      exact (htruth p hp).mp (hall p hp).2 he
    · rintro ⟨hdot, hparent⟩ p hp
      exact ⟨hdot p hp, (htruth p hp).mpr fun he => hparent ⟨p, hp, he⟩⟩
  rw [refuses_iff h, walkTokens_start_none h, canonical_too_long h, hnames]
  tauto

end Exact

/-- A path of the full length whose canonical form has a slash less. -/
theorem vfsPathNormalize_null_exact_full :
    (pathOf (slash :: slash :: List.replicate 4094 0x61)).length = 4096 ∧
      Refuses (pathOf (slash :: slash :: List.replicate 4094 0x61)) fun _ _ => 0 := by
  have hlen : (slash :: List.replicate 4094 0x61).length = 4095 := by
    rw [List.length_cons, List.length_replicate]
  refine ⟨?_, (vfsPathNormalize_null_exact (rooted_pathOf ?_)).mpr (Or.inr (Or.inl ?_)) _⟩
  · unfold pathOf
    rw [List.length_cons, hlen]
    rfl
  · rw [hlen]
    decide
  · rw [bytes_pathOf (by rw [List.length_cons, hlen]; decide)]
    exact ⟨[], List.replicate 4094 0x61, rfl⟩
/-! ## 3. At the limit -/

/-- A component of 4094 characters, with a slash before it and one behind it: the canonical form has
    4095 characters, and the path is refused. -/
theorem vfsPathNormalize_null_trailing :
    Rooted (pathOf (slash :: (List.replicate 4094 0x61 ++ [slash]))) ∧
      ¬ Refuses (pathOf (slash :: (List.replicate 4094 0x61 ++ [slash]))) fun _ _ => 0 := by
  have hm : VFS_PATH_MAX = 4096 := rfl
  generalize hname : List.replicate 4094 (0x61 : U8) = name
  have hlen : name.length = 4094 := by rw [← hname, List.length_replicate]
  have hsep : slash ∉ name := fun hin => by
    rw [← hname] at hin
    exact absurd (List.eq_of_mem_replicate hin) (by decide)
  have hne : name ≠ [] := List.ne_nil_of_length_pos (by omega)
  have hcut : Cut slash [slash] := Or.inr ⟨[], rfl⟩
  have hfull : (slash :: (name ++ [slash])).length = VFS_PATH_MAX := by
    rw [List.length_cons, List.length_append, List.length_singleton]
    omega
  have hroot : Rooted (pathOf (slash :: (name ++ [slash]))) := rooted_pathOf (by
    rw [List.length_cons] at hfull
    omega)
  refine ⟨hroot, fun href => ?_⟩
  rw [refuses_iff hroot, walkTokens_start_none hroot, canonical_too_long hroot,
    bytes_pathOf (Nat.le_of_eq hfull)] at href
  have hlast : (slash :: (name ++ [slash])).getLast? = some slash := by
    rw [← List.cons_append, List.getLast?_concat]
  refine (href.mp ⟨hfull, ?_, fun p hp => ?_⟩).2.2.1 hlast
  · rw [List.infix_cons_iff, infix_name hsep]
    rintro (hpre | hin)
    · obtain ⟨x, d, rfl⟩ := List.exists_cons_of_ne_nil hne
      exact hsep ((List.cons_prefix_cons.mp (List.cons_prefix_cons.mp hpre).2).1 ▸
        List.mem_cons_self)
    · exact absurd hin.length_le (by simp)
  · rw [names_sep, names_name hne hsep hcut, names_sep, names_nil] at hp
    obtain rfl := List.mem_singleton.mp hp
    refine ⟨fun he => ?_, fun h2 => ?_⟩
    · rw [show name = [dot] from he] at hlen
      cases hlen
    · have h2' : name.length = 2 := h2.1
      omega

end Slightx
