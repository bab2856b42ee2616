import Fidelix.Pkgtools.Installpkg
import Fidelix.Pkgtools.Removepkg
import Fidelix.Text.Exact

namespace Fidelix.Pkgtools

open Text Files

structure Decoded (m : Str) : Prop where
  read : ∀ ls, readLines (stripDot m :: ls) = stripDot m :: readLines ls
  counted : ∀ (t : Tree) (cwd : Loc) (contents_files : List Str),
    (∀ w ∈ contents_files, ∃ ls, t.text cwd w = some ls ∧ ∀ l ∈ ls, '\n' ∉ l) →
    count t cwd contents_files (stripDot m) =
      (contents_files.map fun w => ((t.text cwd w).getD []).count (stripDot m)).sum

/-- A line without quotes for `read`, blanks at its ends and characters that are special to `grep`.
-/
def Unquoted (l : Str) : Prop := Verbatim l ∧ '.' ∉ l ∧ '[' ∉ l ∧ '*' ∉ l.tail

instance (l : Str) : Decidable (Unquoted l) := inferInstanceAs (Decidable (_ ∧ _ ∧ _ ∧ _))

theorem unescape_length (s : Str) :
    (unescape s).1.length ≤ s.length ∧ ('\\' ∈ s → (unescape s).1.length < s.length) := by
  fun_induction unescape s with
  | case1 => simp
  | case2 => simp
  | case3 c s r ih =>
      have hr : r.1.length ≤ s.length := ih.1
      simp only [List.length_cons]
      exact ⟨by omega, fun _ => by omega⟩
  | case4 c s h1 h2 r ih =>
      have hr : r.1.length ≤ s.length := ih.1
      simp only [List.length_cons]
      refine ⟨by omega, fun hm => ?_⟩
      have hc : c ≠ '\\' := by
        intro hc
        cases s with
        | nil => exact h1 hc rfl
        | cons d s => exact h2 d s hc rfl
      have hlt : r.1.length < s.length := ih.2 ((List.mem_cons.mp hm).resolve_left (Ne.symm hc))
      omega

theorem strip_length (cs : List (Char × Bool)) : (strip cs).length ≤ cs.length := by
  have h1 := (List.dropWhile_suffix strippable (l := cs)).length_le
  have h2 := (List.dropWhile_suffix strippable (l := (cs.dropWhile strippable).reverse)).length_le
  rw [strip, List.length_map, List.length_reverse]
  rw [List.length_reverse] at h2
  omega

theorem strip_ends {cs : List (Char × Bool)} (h : (strip cs).length = cs.length) :
    (∀ p ∈ cs.head?, strippable p = false) ∧ ∀ p ∈ cs.getLast?, strippable p = false := by
  have h1 := List.dropWhile_suffix strippable (l := cs)
  have h2 := List.dropWhile_suffix strippable (l := (cs.dropWhile strippable).reverse)
  have hl1 := h1.length_le
  have hl2 := h2.length_le
  rw [strip, List.length_map, List.length_reverse] at h
  rw [List.length_reverse] at hl2
  have he1 := h1.eq_of_length (by omega)
  have he2 := h2.eq_of_length (by rw [List.length_reverse]; omega)
  rw [he1] at he2
  refine ⟨fun p hp => ?_, fun p hp => ?_⟩
  · have hh := List.head?_dropWhile_not strippable cs
    rw [he1, hp] at hh
    simpa using hh
  · have hh := List.head?_dropWhile_not strippable cs.reverse
    rw [he2, List.head?_reverse, hp] at hh
    simpa using hh

theorem read_iff (l : Str) : (∀ ls, readLines (l :: ls) = l :: readLines ls) ↔ Verbatim l := by
  constructor
  · intro h
    have hl := h []
    have hread : readLines [l] = if (unescape l).2 then [] else [strip (unescape l).1] := by
      rw [readLines, readLoop]
      rfl
    rw [hread] at hl
    split at hl
    · cases hl
    · have hs : strip (unescape l).1 = l := (List.cons.inj hl).1
      have hlen := strip_length (unescape l).1
      rw [hs] at hlen
      have hb : '\\' ∉ l := by
        intro hm
        have := (unescape_length l).2 hm
        omega
      rw [unescape_of_not_mem l hb] at hs
      have hkept : (strip (l.map (·, false))).length = (l.map (·, false)).length := by
        rw [hs, List.length_map]
      obtain ⟨h1, h2⟩ := strip_ends hkept
      refine ⟨hb, fun c hc => ?_, fun c hc => ?_⟩
      · have := h1 (c, false) (by rw [List.head?_map, hc]; rfl)
        simpa [strippable] using this
      · have := h2 (c, false) (by rw [List.getLast?_map, hc]; rfl)
        simpa [strippable] using this
  · intro h ls
    rw [readLines, readLoop, unescape_of_not_mem l h.1]
    simp only [Bool.false_eq_true, if_false, List.nil_append, strip_verbatim l h]
    rfl

theorem grepFile_text {t : Tree} {cwd : Loc} {w : Str} {ls : List Str} (h : t.text cwd w = some ls)
    (pat : Str) :
    t.grepFile cwd pat w = ls.countP (search pat) := by
  rw [Tree.text] at h
  rw [Tree.grepFile]
  cases hs : t.stat cwd w with
  | none => simp [hs] at h
  | some p =>
      rw [hs, Option.bind_some] at h
      split at h
      · rename_i e us hn
        rw [← Option.some.inj h]
        simp [Tree.dirAt, hn, Tree.countLines]
      · cases h

theorem counted_iff (l : Str) : (∀ (t : Tree) (cwd : Loc) (contents_files : List Str),
    (∀ w ∈ contents_files, ∃ ls, t.text cwd w = some ls ∧ ∀ l ∈ ls, '\n' ∉ l) →
    count t cwd contents_files l = (contents_files.map fun w =>
      ((t.text cwd w).getD []).count l).sum) ↔
    ∀ line, '\n' ∉ line → (search ('^' :: (l ++ ['$'])) line = true ↔ line = l) := by
  constructor
  · intro h line hline
    have htext : (Tree.ofList [([['c']], .file false [line])]).text [] ['c'] = some [line] := rfl
    have hc := h _ [] [['c']] fun w hw =>
      ⟨[line], by rw [List.mem_singleton.mp hw, htext], by simpa using hline⟩
    rw [count, Tree.grepCount, List.map_singleton, List.sum_singleton, grepFile_text htext,
      List.map_singleton,
      List.sum_singleton, htext, Option.getD_some] at hc
    by_cases he : line = l
    · subst he
      simpa using hc
    · simp [he, List.countP_cons] at hc
      simp [he, hc]
  · intro h t cwd cf hcf
    rw [count, Tree.grepCount]
    congr 1
    apply List.map_congr_left
    intro w hw
    obtain ⟨ls, hls, hn⟩ := hcf w hw
    rw [grepFile_text hls, hls, Option.getD_some, List.count]
    apply List.countP_congr
    intro x hx
    rw [h x (hn x hx), beq_iff_eq]

/-- A member is decoded as it was encoded exactly when nothing in its line is quoted. -/
theorem decoded_iff (m : Str) (hm : '\n' ∉ m) : Decoded m ↔ Unquoted (stripDot m) := by
  have hn : '\n' ∉ stripDot m := by
    unfold stripDot
    split
    · simp only [List.mem_cons, not_or] at hm ⊢
      exact hm.2
    · exact hm
  constructor
  · intro h
    have hv := (read_iff _).mp h.read
    exact ⟨hv, (selects_self_iff hv.1 hn).mp ((counted_iff _).mp h.counted)⟩
  · rintro ⟨hv, hs⟩
    exact ⟨(read_iff _).mpr hv, (counted_iff _).mpr ((selects_self_iff hv.1 hn).mpr hs)⟩

def plainMember : Str := ['.', '/', 'u', 's', 'r', '/', 'a']

theorem decoded_plainMember : Decoded plainMember :=
  (decoded_iff plainMember (by decide)).mpr (by decide)

/-- A dot selects every character. -/
theorem dotted_not_decoded : ¬ ∀ m : Str, '\n' ∉ m → Decoded m := by
  intro h
  have hline :=
    (counted_iff _).mp (h ['.', '/', 'a', '.', 'b'] (by decide)).counted
    ['/', 'a', 'x', 'b'] (by decide)
  exact absurd (hline.mp (by decide +kernel)) (by decide)

end Fidelix.Pkgtools
