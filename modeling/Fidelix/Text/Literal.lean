import Fidelix.Text.Exact

namespace Fidelix.Text

def literal (c : Char) : Bool := !special c && c != '.' && c != '$'

theorem literal_iff {c : Char} : literal c = true ↔ special c = false ∧ c ≠ '.' ∧ c ≠ '$' := by
  simp [literal, and_assoc]

theorem token_literal (c : Char) (s : Str) (h : literal c = true) :
    token c s = some (.char c, s) := by
  obtain ⟨hs, hd, he⟩ := literal_iff.mp h
  simp only [special, Bool.or_eq_false_iff, beq_eq_false_iff_ne] at hs
  obtain ⟨⟨h1, h2⟩, h3⟩ := hs
  simp only [token, h1, h2, h3, hd, he, false_and, if_false]

theorem tokens_literal (p : Str) (h : ∀ c ∈ p, literal c = true) :
    tokens token p.length p = some (p.map .plain ++ []) := by
  induction p with
  | nil => rfl
  | cons c p ih =>
      have hc := h c (by simp)
      have hd : Token.plain c = .char c := if_neg (literal_iff.mp hc).2.1
      rw [List.length_cons, tokens, token_literal c p hc, Option.bind_some, ih fun d hd =>
        h d (by simp [hd])]
      simp [hd]

theorem atoms_literal (p : Str) (h : ∀ c ∈ p, literal c = true) : p.map atom = p.map .lit := by
  apply List.map_congr_left
  intro c hc
  exact if_neg (literal_iff.mp (h c hc)).2.1

theorem compile_literal (c : Char) (p : Str) (hc : c ≠ '^') (h : ∀ d ∈ c :: p, literal d = true) :
    compile (c :: p) = some (sequence ((c :: p).map .lit)) := by
  have he : compile (c :: p) =
      (tokens token (c :: p).length (c :: p)).bind fun ts => parse ts 0 ⟨0, [], []⟩ [] := by
    rw [compile]
    simpa using hc
  rw [he, tokens_literal _ h, Option.bind_some, parse_plain, atoms_literal _ h]
  simp [parse, Frame.close]

theorem compile_caret (p : Str) (h : ∀ c ∈ p, literal c = true) :
    compile ('^' :: p) = some (sequence (.bol :: p.map .lit)) := by
  rw [compile, tokens_literal p h, Option.bind_some, parse_plain, atoms_literal p h]
  simp [parse, Frame.close]

theorem run_literal (p : Str) (b : Bool) (s : Str) :
    (sequence (p.map .lit)).run ⟨b, s, []⟩ = if p <+: s
      then [⟨b && p.isEmpty, s.drop p.length, []⟩] else [] := by
  induction p generalizing b s with
  | nil => simp [sequence, Regex.run]
  | cons c p ih =>
      cases s with
      | nil => simp [sequence, Regex.run, Pos.step]
      | cons d s =>
          have hi := ih false s
          simp only [sequence] at hi
          by_cases hd : d = c
          · subst hd
            simp [sequence, Regex.run, Pos.step, hi]
          · simp [sequence, Regex.run, Pos.step, hd, Ne.symm hd]

theorem run_caret (p : Str) (b : Bool) (s : Str) : (sequence (.bol :: p.map .lit)).run ⟨b, s, []⟩ =
    if b = true ∧ p <+: s then [⟨p.isEmpty, s.drop p.length, []⟩] else [] := by
  have hr : (sequence (.bol :: p.map .lit)).run ⟨b, s, []⟩ =
      if b then (sequence (p.map .lit)).run ⟨b, s, []⟩ else [] := by
    cases b <;> simp [sequence, Regex.run]
  rw [hr, run_literal]
  cases b <;> simp

theorem search_literal (c : Char) (p line : Str) (hc : c ≠ '^')
    (h : ∀ d ∈ c :: p, literal d = true) :
    search (c :: p) line = true ↔ c :: p <:+: line := by
  have hne (b : Bool) (s : Str) :
      (!((sequence ((c :: p).map .lit)).run ⟨b, s, []⟩).isEmpty) = true ↔ c :: p <+: s := by
    rw [run_literal]
    split <;> simp [*]
  have ht : line.tails = line :: line.tails.tail := by cases line <;> simp
  rw [search, compile_literal c p hc h, List.infix_iff_prefix_suffix]
  simp only [Regex.selects, Bool.or_eq_true, List.any_eq_true, hne]
  constructor
  · rintro (hp | ⟨s, hs, hp⟩)
    · exact ⟨line, hp, List.suffix_refl line⟩
    · have hm : s ∈ line.tails := by
        rw [ht]
        exact List.mem_cons_of_mem _ hs
      exact ⟨s, hp, (List.mem_tails s line).mp hm⟩
  · rintro ⟨s, hp, hs⟩
    have hm := (List.mem_tails s line).mpr hs
    rw [ht] at hm
    rcases List.mem_cons.mp hm with rfl | hm
    · exact .inl hp
    · exact .inr ⟨s, hm, hp⟩

theorem search_caret (p line : Str) (h : ∀ c ∈ p, literal c = true) :
    search ('^' :: p) line = true ↔ p <+: line := by
  rw [search, compile_caret p h]
  simp only [selects_anchored, run_literal]
  split <;> simp [*]

theorem search_head {c d : Char} {p line : Str} (hc : literal c = true) (hd : literal d = true)
    (hp : '\\' ∉ p) (h : search ('^' :: c :: d :: p) line = true) : ∃ u, line = c :: u := by
  rw [search] at h
  split at h
  · cases h
  · rename_i r hr
    obtain ⟨us, hus, hparse⟩ := Option.bind_eq_some_iff.mp hr
    rw [List.length_cons, tokens, token_literal c _ hc, Option.bind_some, List.length_cons, tokens,
      token_literal d p hd,
      Option.bind_some] at hus
    obtain ⟨vs, hvs, rfl⟩ := Option.map_eq_some_iff.mp hus
    obtain ⟨ts, hts, rfl⟩ := Option.map_eq_some_iff.mp hvs
    obtain ⟨ys, rfl⟩ : ∃ ys, r = sequence ([.lit c, .bol].reverse ++ ys) :=
      parse_front (tokens_lone hp hts) hparse
    simp only [List.reverse_cons, List.reverse_nil, List.nil_append, List.cons_append] at h
    rw [selects_anchored, Bool.not_eq_true'] at h
    obtain ⟨u, hu, _⟩ := (run_lit_cons c ys true line).mp h
    exact ⟨u, hu⟩

theorem longest_caret (p line : Str) (h : ∀ c ∈ p, literal c = true) :
    longest ('^' :: p) line = if p <+: line then some (line.drop p.length) else none := by
  rw [longest, compile_caret p h]
  simp only [run_caret, true_and]
  split <;> simp

end Fidelix.Text
