import Fidelix.Files.Resolve
import Fidelix.Text.Bre

namespace Fidelix.Files

open Text

inductive GlobToken
  | char (c : Char)
  | one
  | many
  | set (b : Bracket)

def globTokens : Nat → Str → List GlobToken
  | 0, s => s.map .char
  | _, [] => []
  | n + 1, c :: s =>
      if c = '*' then .many :: globTokens n s
      else if c = '?' then .one :: globTokens n s
      else if c = '[' then match bracket (fun c => c == '^' || c == '!') s with
        | some (b, r) => .set b :: globTokens n r
        | none => .char c :: globTokens n s
      else match s with
        | d :: r => if c = '\\' then .char d :: globTokens n r else .char c :: globTokens n s
        | [] => [.char c]

def fnmatchTokens : List GlobToken → Str → Bool
  | [], s => s.isEmpty
  | .many :: ts, s => s.tails.any (fnmatchTokens ts)
  | _ :: _, [] => false
  | .char c :: ts, d :: s => d == c && fnmatchTokens ts s
  | .one :: ts, _ :: s => fnmatchTokens ts s
  | .set b :: ts, d :: s => b.mem d && fnmatchTokens ts s

def fnmatch (pat s : Str) : Bool := fnmatchTokens (globTokens pat.length pat) s

def globChar (c : Char) : Bool := c == '*' || c == '?' || c == '['

def globNames (t : Tree) (cwd : Loc) (pre pat : Str) : List Str :=
  match t.stat cwd (if pre = [] then dot else pre) with
  | none => []
  | some d => (t.children d).filter fun n =>
      (n.head? != some '.' || pat.head? == some '.') && fnmatch pat n

/-- `pre` is the text of the names already expanded, with its final slash. -/
def globFrom (t : Tree) (cwd : Loc) (pre : Str) : List Str → List Str
  | [] => [pre]
  | [g] =>
      if g.any globChar then (globNames t cwd pre g).map (pre ++ ·)
      else if ((t.stat cwd (pre ++ g)).bind t.node).isSome then [pre ++ g] else []
  | g :: gs =>
      if g.any globChar then (globNames t cwd pre g).flatMap fun n =>
        globFrom t cwd (pre ++ n ++ ['/']) gs
      else globFrom t cwd (pre ++ g ++ ['/']) gs

def globWord (t : Tree) (cwd : Loc) (w : Str) : List Str :=
  if w.any globChar then
    let found := globFrom t cwd [] (w.splitOn '/')
    if found = [] then [w] else found
  else [w]

def expand (t : Tree) (cwd : Loc) (s : Str) : List Str := (words s).flatMap (globWord t cwd)

def OneWord (s : Str) : Prop := s ≠ [] ∧ ∀ c ∈ s, blank c = false ∧ globChar c = false

instance (s : Str) : Decidable (OneWord s) :=
  decidable_of_iff (s ≠ [] ∧ (s.all fun c => !blank c && !globChar c) = true) (by simp [OneWord])

theorem expand_oneWord (t : Tree) (cwd : Loc) {s : Str} (h : OneWord s) : expand t cwd s = [s] := by
  have hw : words s = [s] := words_eq_singleton s h.1 fun c hc => (h.2 c hc).1
  have hg : s.any globChar = false := by simpa using fun c hc => (h.2 c hc).2
  simp [expand, hw, globWord, hg]

theorem globFrom_cons (t : Tree) (cwd : Loc) (pre : Str) {d : Str} {gs : List Str}
    (hd : d.any globChar = false) (hgs : gs ≠ []) :
    globFrom t cwd pre (d :: gs) = globFrom t cwd (pre ++ d ++ ['/']) gs := by
  cases gs with
  | nil => exact absurd rfl hgs
  | cons e es => simp [globFrom, hd]

theorem globFrom_plain (t : Tree) (cwd : Loc) (pre g : Str) (gs : List Str)
    (h : ∀ d ∈ gs, d.any globChar = false) :
    globFrom t cwd pre (gs ++ [g]) = globFrom t cwd (pre ++ gs.flatMap (· ++ ['/'])) [g] := by
  induction gs generalizing pre with
  | nil => simp
  | cons d gs ih =>
      have hd : d.any globChar = false := h d (by simp)
      rw [List.cons_append, globFrom_cons t cwd pre hd (by simp), ih _ fun d hd =>
        h d (by simp [hd])]
      simp

theorem flatMap_slash {l : List Str} (hl : l ≠ []) :
    l.flatMap (· ++ ['/']) = ['/'].intercalate l ++ ['/'] := by
  induction l with
  | nil => exact absurd rfl hl
  | cons a l ih =>
      cases l with
      | nil => simp [List.intercalate]
      | cons b l =>
          have hb := ih (by simp)
          rw [List.flatMap_cons, hb]
          simp [List.intercalate]

theorem expand_pattern (t : Tree) (cwd : Loc) {d g : Str}
    (hd : ∀ c ∈ d, blank c = false ∧ globChar c = false) (hg : ∀ c ∈ g, blank c = false)
    (hs : '/' ∉ g) (hp : g.any globChar = true) :
    expand t cwd (d ++ '/' :: g) =
      if globNames t cwd (d ++ ['/']) g = [] then [d ++ '/' :: g]
      else (globNames t cwd (d ++ ['/']) g).map (d ++ '/' :: ·) := by
  have hw : words (d ++ '/' :: g) = [d ++ '/' :: g] := by
    apply words_eq_singleton
    · simp
    · intro c hc
      rcases List.mem_append.mp hc with hc | hc
      · exact (hd c hc).1
      · rcases List.mem_cons.mp hc with rfl | hc
        · decide
        · exact hg c hc
  have hany : (d ++ '/' :: g).any globChar = true := by simp [hp]
  have hsplit : (d ++ '/' :: g).splitOn '/' = d.splitOn '/' ++ [g] := by
    rw [List.splitOn_append_cons_self, List.splitOn_eq_singleton hs]
  have hplain : ∀ e ∈ d.splitOn '/', e.any globChar = false := by
    intro e he
    rw [List.any_eq_false]
    intro c hc
    have hcd : c ∈ d := mem_of_mem_splitOn he hc
    simp [(hd c hcd).2]
  have hpre : [] ++ (d.splitOn '/').flatMap (· ++ ['/']) = d ++ ['/'] := by
    rw [List.nil_append, flatMap_slash (List.splitOn_ne_nil '/' d), List.intercalate_splitOn]
  have hfrom : globFrom t cwd [] ((d ++ '/' :: g).splitOn '/') =
      (globNames t cwd (d ++ ['/']) g).map (d ++ '/' :: ·) := by
    rw [hsplit, globFrom_plain t cwd [] g _ hplain, hpre, globFrom, if_pos hp]
    simp
  rw [expand, hw, List.flatMap_singleton, globWord, if_pos hany, hfrom]
  simp

def PlainText (s : Str) : Prop := ∀ c ∈ s, blank c = false ∧ globChar c = false ∧ c ≠ '/' ∧ c ≠ '\\'

instance (s : Str) : Decidable (PlainText s) :=
  decidable_of_iff ((s.all fun c => !blank c && !globChar c && c != '/' && c != '\\') = true)
    (by simp [PlainText, and_assoc])

theorem PlainText.append {a b : Str} (ha : PlainText a) (hb : PlainText b) :
    PlainText (a ++ b) := by
  intro c hc
  rcases List.mem_append.mp hc with hc | hc
  · exact ha c hc
  · exact hb c hc

theorem PlainText.slash {s : Str} (h : PlainText s) : '/' ∉ s := fun hc => (h _ hc).2.2.1 rfl

theorem PlainText.oneWord {s : Str} (h : PlainText s) (hs : s ≠ []) : OneWord s :=
  ⟨hs, fun c hc => ⟨(h c hc).1, (h c hc).2.1⟩⟩

theorem globTokens_cons (n : Nat) (c : Char) (s : Str) : globTokens (n + 1) (c :: s) =
    if c = '*' then .many :: globTokens n s
    else if c = '?' then .one :: globTokens n s
    else if c = '[' then match bracket (fun c => c == '^' || c == '!') s with
      | some (b, r) => .set b :: globTokens n r
      | none => .char c :: globTokens n s
    else match s with
      | d :: r => if c = '\\' then .char d :: globTokens n r else .char c :: globTokens n s
      | [] => [.char c] := rfl

theorem globTokens_plain {s : Str} (h : PlainText s) : globTokens s.length s = s.map .char := by
  induction s with
  | nil => rfl
  | cons c s ih =>
      have hc := h c (by simp)
      have hg := hc.2.1
      simp only [globChar, Bool.or_eq_false_iff, beq_eq_false_iff_ne] at hg
      rw [List.length_cons, globTokens_cons, if_neg hg.1.1, if_neg hg.1.2, if_neg hg.2]
      cases s with
      | nil => rfl
      | cons d s =>
          have hi := ih fun e he => h e (by simp [he])
          simp only [if_neg hc.2.2.2, hi, List.map_cons]

theorem fnmatchTokens_chars (p s : Str) : fnmatchTokens (p.map .char) s = true ↔ s = p := by
  induction p generalizing s with
  | nil => simp [fnmatchTokens]
  | cons c p ih =>
      cases s with
      | nil => simp [fnmatchTokens]
      | cons d s => simp [fnmatchTokens, ih]

theorem fnmatch_star {p : Str} (hp : PlainText p) (s : Str) :
    fnmatch ('*' :: p) s = true ↔ p <:+ s := by
  rw [fnmatch, List.length_cons, globTokens_cons, if_pos rfl, globTokens_plain hp, fnmatchTokens,
    List.any_eq_true]
  constructor
  · rintro ⟨u, hu, hm⟩
    rw [fnmatchTokens_chars] at hm
    subst hm
    exact (List.mem_tails _ _).mp hu
  · intro h
    exact ⟨p, (List.mem_tails _ _).mpr h, (fnmatchTokens_chars p p).mpr rfl⟩

theorem globTokens_char (n : Nat) {c : Char} (hc : globChar c = false) (hb : c ≠ '\\') (s : Str) :
    globTokens (n + 1) (c :: s) = .char c :: globTokens n s := by
  simp only [globChar, Bool.or_eq_false_iff, beq_eq_false_iff_ne] at hc
  rw [globTokens_cons, if_neg hc.1.1, if_neg hc.1.2, if_neg hc.2]
  cases s with
  | nil => cases n <;> rfl
  | cons d s => exact if_neg hb

theorem fnmatch_plain {a : Str} (ha : PlainText a) (pat s : Str) :
    fnmatch (a ++ pat) s = true ↔ ∃ r, s = a ++ r ∧ fnmatch pat r = true := by
  induction a generalizing s with
  | nil => simp
  | cons c a ih =>
      have hc := ha c (by simp)
      have htokens : fnmatch (c :: a ++ pat) s =
        fnmatchTokens (.char c :: globTokens (a ++ pat).length (a ++ pat)) s := by
        rw [fnmatch, List.cons_append, List.length_cons, globTokens_char _ hc.2.1 hc.2.2.2]
      rw [htokens]
      cases s with
      | nil => simp [fnmatchTokens]
      | cons d s =>
          have hi := ih (fun e he => ha e (by simp [he])) s
          rw [fnmatch] at hi
          simp only [fnmatchTokens, Bool.and_eq_true, beq_iff_eq, hi, List.cons_append,
            List.cons.injEq]
          constructor
          · rintro ⟨rfl, r, rfl, hr⟩
            exact ⟨r, ⟨rfl, rfl⟩, hr⟩
          · rintro ⟨r, ⟨rfl, rfl⟩, hr⟩
            exact ⟨rfl, r, rfl, hr⟩

theorem fnmatch_around {a p : Str} (ha : PlainText a) (hp : PlainText p) (s : Str) :
    fnmatch (a ++ '*' :: p) s = true ↔ ∃ r, s = a ++ r ∧ p <:+ r := by
  simp only [fnmatch_plain ha, fnmatch_star hp]

end Fidelix.Files
