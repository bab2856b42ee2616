import Fidelix.Text.Words

namespace Fidelix.Text

inductive Quoting
  | plain
  | single
  | double

abbrev Mark := Char × Bool

def operatorChar (c : Char) : Bool :=
  c ∈ ['&', ';', '|', '<', '>', '(', ')', '\x60', '\n', '*', '?', '[']

def expands : Str → Bool
  | [] => false
  | c :: _ => c.isAlphanum || c ∈ ['_', '@', '*', '#', '?', '-', '$', '!', '\x7b', '(']

/-- The words of a text, `w` being the one that is read. There are none where the shell does more
than to read words: a quote that stays open, an operator, an expansion, a pattern. -/
def readWords : Quoting → Option (List Mark) → Str → Option (List (List Mark))
  | .plain, w, [] => some w.toList
  | .single, _, [] | .double, _, [] => none
  | .plain, w, '\\' :: c :: s =>
      if c = '\n' then readWords .plain w s
        else readWords .plain (some (w.getD [] ++ [(c, true)])) s
  | .double, w, '\\' :: c :: s =>
      if c = '\n' then readWords .double w s
      else if c ∈ ['$', '\x60', '"', '\\']
        then readWords .double (some (w.getD [] ++ [(c, true)])) s
      else readWords .double (some (w.getD [] ++ [('\\', true), (c, true)])) s
  | .plain, w, c :: s =>
      if c = ' ' ∨ c = '\t' then (readWords .plain none s).map (w.toList ++ ·)
      else if c = '\'' then readWords .single (some (w.getD [])) s
      else if c = '"' then readWords .double (some (w.getD [])) s
      else if c = '#' ∧ w = none then if '\n' ∈ s then none else some []
      else if operatorChar c ∨ c = '$' ∧ (expands s ∨ s.head? = some '\'') then none
      else readWords .plain (some (w.getD [] ++ [(c, false)])) s
  | .single, w, c :: s =>
      if c = '\'' then readWords .plain w s
        else readWords .single (some (w.getD [] ++ [(c, true)])) s
  | .double, w, c :: s =>
      if c = '"' then readWords .plain w s
      else if c = '\x60' ∨ c = '$' ∧ expands s then none
      else readWords .double (some (w.getD [] ++ [(c, true)])) s

def homeOf (home : Str → Option Str) (w : List Mark) : Option Str :=
  let name := w.takeWhile (· ≠ ('/', false))
  if name.any Prod.snd then none else home (name.map Prod.fst)

def tilde (home : Str → Option Str) : List Mark → Str
  | ('~', false) :: w => match homeOf home w with
      | none => '~' :: w.map Prod.fst
      | some h => h ++ (w.dropWhile (· ≠ ('/', false))).map Prod.fst
  | w => w.map Prod.fst

/-- What `eval set -- text` sets the arguments to. -/
def evalWords (home : Str → Option Str) (text : Str) : Option (List Str) :=
  (readWords .plain none text).map (List.map (tilde home))

def verbatim : Str → Bool
  | [] => true
  | c :: s => !(operatorChar c || c ∈ [' ', '\t', '\\', '\'', '"']) &&
    !(c == '$' && expands s) && verbatim s

/-- Whether a letter is an option of `getopt`, and then whether it takes an argument. -/
def optionKind (optstring : Str) (c : Char) : Option Bool :=
  if c = ':' then none
  else match optstring.dropWhile (· ≠ c) with
    | [] => none
    | _ :: rest => some (rest.head? == some ':')

def cluster (optstring : Str) : Str → Option (List (Char × Option Str) × Option Char)
  | [] => some ([], none)
  | c :: cs => match optionKind optstring c with
      | none => none
      | some false => (cluster optstring cs).map fun r => ((c, none) :: r.1, r.2)
      | some true => if cs = [] then some ([], some c) else some ([(c, some cs)], none)

/-- `getopt optstring args`, with the option that takes the next argument: the options and the
operands, or an error. -/
def getopt (optstring : Str) : Option Char → List Str → Option (List (Char × Option Str) × List Str)
  | none, [] => some ([], [])
  | some _, [] => none
  | some c, a :: args => (getopt optstring none args).map fun r => ((c, some a) :: r.1, r.2)
  | none, a :: args => match a with
      | ['-', '-'] => some ([], args)
      | '-' :: '-' :: _ => none
      | '-' :: c :: cs => (cluster optstring (c :: cs)).bind fun r =>
          (getopt optstring r.2 args).map fun q => (r.1 ++ q.1, q.2)
      | _ => (getopt optstring none args).map fun q => (q.1, a :: q.2)

def optionText (o : Char × Option Str) : Str := [' ', '-', o.1] ++ o.2.elim [] (' ' :: ·)

/-- What `getopt` prints: nothing is quoted. -/
def getoptText (r : List (Char × Option Str) × List Str) : Str :=
  r.1.flatMap optionText ++ [' ', '-', '-'] ++ r.2.flatMap (' ' :: ·)

theorem verbatim_cons {c : Char} {s : Str} :
    verbatim (c :: s) = true ↔ (operatorChar c = false ∧ c ≠ ' ' ∧ c ≠ '\t' ∧
    c ≠ '\\' ∧ c ≠ '\'' ∧ c ≠ '"') ∧ ¬ (c = '$' ∧ expands s = true) ∧ verbatim s = true := by
  simp [verbatim, and_assoc, imp_iff_not_or]

theorem verbatim_append {s u : Str} (hs : verbatim s = true) (hu : verbatim u = true)
    (he : expands u = false) :
    verbatim (s ++ u) = true := by
  induction s with
  | nil => exact hu
  | cons c s ih =>
      obtain ⟨hc, hd, hs⟩ := verbatim_cons.mp hs
      refine verbatim_cons.mpr ⟨hc, fun h => hd ⟨h.1, ?_⟩, ih hs⟩
      cases s with
      | nil => simp [he] at h
      | cons _ _ => exact h.2

theorem verbatim_left {s u : Str} (h : verbatim (s ++ u) = true) : verbatim s = true := by
  induction s with
  | nil => rfl
  | cons c s ih =>
      obtain ⟨hc, hd, hs⟩ := verbatim_cons.mp h
      refine verbatim_cons.mpr ⟨hc, fun h => hd ⟨h.1, ?_⟩, ih hs⟩
      cases s with
      | nil => simp [expands] at h
      | cons _ _ => exact h.2

theorem readWords_char {c : Char} {s : Str} (hc : verbatim [c] = true)
    (hd : ¬ (c = '$' ∧ expands s = true)) (hq : ¬ (c = '$' ∧ s.head? = some '\''))
    {w : Option (List Mark)} (hw : w = none → c ≠ '#') :
    readWords .plain w (c :: s) = readWords .plain (some (w.getD [] ++ [(c, false)])) s := by
  obtain ⟨⟨hop, hsp, htab, hbs, hsq, hdq⟩, _⟩ := verbatim_cons.mp hc
  have hcomment : ¬ (c = '#' ∧ w = none) := fun h => hw h.2 h.1
  have hdollar :
    ¬ (operatorChar c = true ∨ c = '$' ∧ (expands s = true ∨ s.head? = some '\'')) := by
    rintro (h | ⟨h, he | he⟩)
    · simp [hop] at h
    · exact hd ⟨h, he⟩
    · exact hq ⟨h, he⟩
  rw [readWords]
  · simp only [hsp, htab, hsq, hdq, or_self, if_false, hcomment, hdollar]
  · exact fun _ _ h => absurd h hbs

theorem readWords_verbatim {s u : Str} (h : verbatim s = true) (hu : expands u = false)
    (hq : u.head? ≠ some '\'') (w : List Mark) :
    readWords .plain (some w) (s ++ u) = readWords .plain (some (w ++ s.map (·, false))) u := by
  induction s generalizing w with
  | nil => simp
  | cons c s ih =>
      obtain ⟨hc, hd, hs⟩ := verbatim_cons.mp h
      rw [List.cons_append, readWords_char (verbatim_cons.mpr ⟨hc, by simp [expands], rfl⟩), ih hs]
      · simp
      · rintro ⟨he, hx⟩
        cases s with
        | nil => simp [hu] at hx
        | cons _ _ => exact hd ⟨he, hx⟩
      · rintro ⟨_, he⟩
        cases s with
        | nil => exact hq he
        | cons _ _ => exact (verbatim_cons.mp hs).1.2.2.2.2.1 (by simpa using he)
      · simp

theorem readWords_word {s u : Str} (h : verbatim s = true) (hne : s ≠ []) (hh : s.head? ≠ some '#')
    (hu : expands u = false) (hq : u.head? ≠ some '\'') :
    readWords .plain none (s ++ u) = readWords .plain (some (s.map (·, false))) u := by
  cases s with
  | nil => exact absurd rfl hne
  | cons c s =>
      obtain ⟨hc, hd, hs⟩ := verbatim_cons.mp h
      rw [List.cons_append, readWords_char (verbatim_cons.mpr ⟨hc, by simp [expands], rfl⟩),
        readWords_verbatim hs hu hq]
      · simp
      · rintro ⟨he, hx⟩
        cases s with
        | nil => simp [hu] at hx
        | cons _ _ => exact hd ⟨he, hx⟩
      · rintro ⟨_, he⟩
        cases s with
        | nil => exact hq he
        | cons _ _ => exact (verbatim_cons.mp hs).1.2.2.2.2.1 (by simpa using he)
      · exact fun _ he => hh (by simp [he])

def Quoting.toClose : Quoting → Nat
  | .plain => 0
  | .single | .double => 1

theorem readWords_length (q : Quoting) (w : Option (List Mark)) (s : Str) :
    ∀ ws, readWords q w s = some ws →
    ws.flatten.length + q.toClose ≤ (w.getD []).length + s.length := by
  fun_induction readWords q w s with
  | case2 | case3 | case12 | case14 | case19 => simp
  | case1 w =>
      rintro _ ⟨⟩
      cases w <;> simp [Quoting.toClose]
  | case9 w c s _ _ ih =>
      intro ws h
      obtain ⟨us, hu, rfl⟩ := Option.map_eq_some_iff.mp h
      have := ih us hu
      cases w <;> simp [Quoting.toClose] at * <;> omega
  | case13 =>
      rintro _ ⟨⟩
      simp [Quoting.toClose]
  | case4 | case5 | case6 | case7 | case8 | case10 | case11 | case15 | case16 | case17 | case18
  | case20 =>
      rename_i ih
      intro ws h
      have := ih ws h
      simp [Quoting.toClose] at *
      omega

theorem readWords_prefix (q : Quoting) (w : Option (List Mark)) (s : Str) :
    ∀ ws u, readWords q w s = some ws → w = some u → ∃ v rest, ws = (u ++ v) :: rest := by
  fun_induction readWords q w s with
  | case2 | case3 | case12 | case14 | case19 => simp
  | case1 w =>
      rintro _ u ⟨⟩ rfl
      exact ⟨[], [], by simp⟩
  | case9 w c s _ _ ih =>
      rintro ws u h rfl
      obtain ⟨us, _, rfl⟩ := Option.map_eq_some_iff.mp h
      exact ⟨[], us, by simp⟩
  | case13 _ _ _ _ _ _ _ hw =>
      rintro _ u ⟨⟩ rfl
      simp at hw
  | case4 | case6 | case10 | case11 | case16 | case18 =>
      rename_i ih
      rintro ws u h rfl
      exact ih ws u h rfl
  | case5 | case7 | case8 | case15 | case17 | case20 =>
      rename_i ih
      rintro ws u h rfl
      obtain ⟨v, rest, rfl⟩ := ih ws _ h rfl
      exact ⟨_, rest, by rw [Option.getD_some, List.append_assoc]⟩

theorem verbatim_of_length (q : Quoting) (w : Option (List Mark)) (s : Str) :
    ∀ ws, readWords q w s = some ws → q.toClose = 0 →
    (w.getD []).length + s.length ≤ ws.flatten.length →
      s.getLast? ≠ some '\\' → verbatim s = true ∧ (w = none → s.head? ≠ some '#') := by
  fun_induction readWords q w s with
  | case1 => simp [verbatim]
  | case2 | case3 | case12 | case14 | case19 => simp
  | case9 w c s =>
      intro ws h _ hlen
      obtain ⟨us, hu, rfl⟩ := Option.map_eq_some_iff.mp h
      have := readWords_length _ _ _ us hu
      cases w <;> simp [Quoting.toClose] at * <;> omega
  | case13 =>
      rintro _ ⟨⟩ _ hlen
      simp at hlen
  | case6 | case7 | case8 | case16 | case17 | case18 | case20 =>
      intro _ _ hq
      simp [Quoting.toClose] at hq
  | case4 | case5 | case10 | case11 =>
      intro ws h _ hlen
      have := readWords_length _ _ _ ws h
      simp [Quoting.toClose] at *
      omega
  | case15 w c s hbs hsp hsq hdq hc hop ih =>
      intro ws h hq hlen hlast
      have hlast' : s.getLast? ≠ some '\\' := by
        cases s with
        | nil => simp
        | cons _ _ => rwa [List.getLast?_cons_cons] at hlast
      obtain ⟨hs, _⟩ := ih ws h hq (by simp at hlen ⊢; omega) hlast'
      have hback : c ≠ '\\' := by
        rintro rfl
        cases s with
        | nil => exact hlast rfl
        | cons d s => exact hbs d s rfl rfl
      simp only [not_or, not_and, Bool.not_eq_true] at hop hsp hc
      refine ⟨verbatim_cons.mpr ⟨⟨hop.1, hsp.1, hsp.2, hback, hsq, hdq⟩, fun hd => ?_, hs⟩,
        fun hw he => ?_⟩
      · simp [hop.2 hd.1] at hd
      · exact hc (by simpa using he) hw

theorem tilde_cases (home : Str → Option Str) (w : List Mark) : tilde home w = w.map Prod.fst ∨
    ∃ v name h, w = ('~', false) :: v ∧ home name = some h ∧ h <+: tilde home w := by
  unfold tilde
  split
  · split
    · exact .inl rfl
    · rename_i v _ h hh
      rw [homeOf] at hh
      split at hh
      · simp at hh
      · exact .inr ⟨v, _, h, rfl, hh, List.prefix_append _ _⟩
  · exact .inl rfl

def loginName (s : Str) : Option Str :=
  if s.head? = some '~' then some (s.tail.takeWhile (· ≠ '/')) else none

theorem homeOf_unquoted (home : Str → Option Str) (s : Str) :
    homeOf home (s.map (·, false)) = home (s.takeWhile (· ≠ '/')) := by
  have hname : (s.map fun c => (c, false)).takeWhile (· ≠ ('/', false)) =
      (s.takeWhile (· ≠ '/')).map fun c => (c, false) := by
    rw [List.takeWhile_map]
    congr 2
    funext c
    simp
  rw [homeOf, hname, if_neg (by simp), List.map_map]
  exact congrArg home (List.map_id _)

theorem tilde_unquoted {home : Str → Option Str} {s : Str}
    (h : ∀ name ∈ loginName s, home name = none) :
    tilde home (s.map (·, false)) = s := by
  have hid (u : Str) : (u.map fun c => (c, false)).map Prod.fst = u := by
    rw [List.map_map]
    exact List.map_id _
  unfold tilde
  split
  · rename_i w he
    obtain ⟨u, rfl, rfl⟩ : ∃ u, s = '~' :: u ∧ w = u.map (·, false) := by
      cases s with
      | nil => simp at he
      | cons c u =>
          simp only [List.map_cons, List.cons.injEq, Prod.mk.injEq, and_true] at he
          exact ⟨u, by rw [he.1], he.2.symm⟩
    rw [homeOf_unquoted, h _ (by simp [loginName])]
    exact congrArg _ (hid u)
  · exact hid s

theorem evalWords_self {home : Str → Option Str}
    (habs : ∀ name h, home name = some h → h.head? = some '/') {s : Str} (hne : s ≠ [])
    (hlast : s.getLast? ≠ some '\\') :
    (∃ rest, evalWords home s = some (s :: rest)) ↔
      verbatim s = true ∧ s.head? ≠ some '#' ∧ ∀ name ∈ loginName s, home name = none := by
  have hread (hl : verbatim s = true) (hh : s.head? ≠ some '#') :
      readWords .plain none s = some [s.map (·, false)] := by
    have := readWords_word (u := []) hl hne hh rfl (by simp)
    rwa [List.append_nil] at this
  constructor
  · rintro ⟨rest, h⟩
    obtain ⟨ws, hws, hmap⟩ := Option.map_eq_some_iff.mp h
    obtain ⟨w, ws, rfl, hw, rfl⟩ := List.map_eq_cons_iff.mp hmap
    rcases tilde_cases home w with he | ⟨v, name, dir, rfl, hhome, hpre⟩
    · have hlen : s.length = w.length := by rw [← hw, he, List.length_map]
      obtain ⟨hl, hh⟩ := verbatim_of_length _ _ _ _ hws rfl (by simp [hlen]) hlast
      refine ⟨hl, hh rfl, fun name hname => ?_⟩
      rw [hread hl (hh rfl)] at hws
      obtain ⟨rfl, _⟩ := List.cons.inj (Option.some.inj hws)
      by_contra hsome
      obtain ⟨dir, hdir⟩ := Option.ne_none_iff_exists'.mp hsome
      obtain ⟨u, rfl⟩ : ∃ u, s = '~' :: u := by
        cases s with
        | nil => exact absurd rfl hne
        | cons c u =>
            have hc : c = '~' := by
              by_contra hc
              simp [loginName, hc] at hname
            exact ⟨u, by rw [hc]⟩
      obtain rfl : u.takeWhile (· ≠ '/') = name := by simpa [loginName] using hname
      rw [List.map_cons, tilde, homeOf_unquoted, hdir] at hw
      have := habs _ _ hdir
      cases dir with
      | nil => simp at this
      | cons c dir =>
          simp at this hw
          rw [this] at hw
          simp at hw
    · rw [hw] at hpre
      have hslash : s.head? = some '/' := by
        obtain ⟨x, rfl⟩ := hpre
        have := habs _ _ hhome
        cases dir with
        | nil => simp at this
        | cons c dir => exact this
      obtain ⟨u, rfl⟩ : ∃ u, s = '/' :: u := by
        cases s with
        | nil => simp at hslash
        | cons c u => exact ⟨u, by rw [Option.some.inj hslash]⟩
      rw [readWords_char (by decide) (by simp) (by simp) (by simp)] at hws
      obtain ⟨x, rest, hx⟩ := readWords_prefix _ _ _ _ _ hws rfl
      simp at hx
  · rintro ⟨hl, hh, hhome⟩
    exact ⟨[], by
      rw [evalWords, hread hl hh, Option.map_some, List.map_singleton, tilde_unquoted hhome]⟩

theorem tilde_length {home : Str → Option Str}
    (habs : ∀ name h, home name = some h → h.head? = some '/') {w : List Mark}
    (hh : (tilde home w).head? ≠ some '/') : (tilde home w).length = w.length := by
  rcases tilde_cases home w with he | ⟨v, name, dir, rfl, hhome, x, hx⟩
  · rw [he, List.length_map]
  · have := habs _ _ hhome
    cases dir with
    | nil => simp at this
    | cons c dir =>
        rw [← hx] at hh
        exact absurd this hh

theorem evalWords_length {home : Str → Option Str}
    (habs : ∀ name h, home name = some h → h.head? = some '/') {s a b : Str} {pre post : List Str}
    (h : evalWords home s = some (pre ++ a :: b :: post)) (ha : a.head? ≠ some '/')
    (hb : b.head? ≠ some '/') : a.length + b.length ≤ s.length := by
  obtain ⟨ws, hws, hmap⟩ := Option.map_eq_some_iff.mp h
  obtain ⟨ws₁, vs, rfl, _, hvs⟩ := List.map_eq_append_iff.mp hmap
  obtain ⟨v, us, rfl, rfl, hus⟩ := List.map_eq_cons_iff.mp hvs
  obtain ⟨w, ws₂, rfl, rfl, _⟩ := List.map_eq_cons_iff.mp hus
  have hlen := readWords_length _ _ _ _ hws
  rw [tilde_length habs ha, tilde_length habs hb]
  simp [Quoting.toClose] at hlen
  omega

end Fidelix.Text
