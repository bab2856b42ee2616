import Fidelix.Text.Words

namespace Fidelix.Text

inductive Item
  | range (lo hi : Char)
  | cls (name : Str)

structure Bracket where
  negated : Bool
  items : List Item

def classMem (name : Str) (c : Char) : Bool :=
  match String.ofList name with
  | "alpha" => c.isAlpha
  | "digit" => c.isDigit
  | "alnum" => c.isAlphanum
  | "upper" => c.isUpper
  | "lower" => c.isLower
  | "space" => c.isWhitespace
  | "blank" => c == ' ' || c == '\t'
  | "punct" => '!' ≤ c && c ≤ '~' && !c.isAlphanum
  | "graph" => '!' ≤ c && c ≤ '~'
  | "print" => ' ' ≤ c && c ≤ '~'
  | "cntrl" => c < ' ' || c == '\x7f'
  | "xdigit" => c.isDigit || ('a' ≤ c && c ≤ 'f') || ('A' ≤ c && c ≤ 'F')
  | _ => false

def Item.mem (c : Char) : Item → Bool
  | .range lo hi => lo ≤ c && c ≤ hi
  | .cls name => classMem name c

def Bracket.mem (b : Bracket) (c : Char) : Bool := b.items.any (Item.mem c) != b.negated

/-- The inside of a bracket expression, up to the `]` that closes it. A `]` in
the first place stands for itself. -/
def bracketItems : Nat → Bool → Str → Option (List Item × Str)
  | 0, _, _ => none
  | n + 1, first, s => match s with
    | [] => none
    | '[' :: ':' :: s =>
        let name := s.takeWhile (· != ':')
        match s.dropWhile (· != ':') with
        | ':' :: ']' :: s => (bracketItems n false s).map (fun r => (.cls name :: r.1, r.2))
        | _ => none
    | '[' :: '.' :: c :: '.' :: ']' :: s | '[' :: '=' :: c :: '=' :: ']' :: s =>
        (bracketItems n false s).map (fun r => (.range c c :: r.1, r.2))
    | lo :: '-' :: hi :: s =>
        if lo = ']' && !first then some ([], '-' :: hi :: s)
        else if hi = ']' then some ([.range lo lo, .range '-' '-'], s)
        else (bracketItems n false s).map (fun r => (.range lo hi :: r.1, r.2))
    | c :: s =>
        if c = ']' && !first then some ([], s)
        else (bracketItems n false s).map (fun r => (.range c c :: r.1, r.2))

/-- `neg` is the character that complements the set: `^` in a regular
expression, also `!` in a file name pattern. -/
def bracket (neg : Char → Bool) (s : Str) : Option (Bracket × Str) :=
  match s with
  | c :: r =>
      if neg c then (bracketItems (r.length + 1) true r).map (fun p => (⟨true, p.1⟩, p.2))
      else (bracketItems (s.length + 1) true s).map (fun p => (⟨false, p.1⟩, p.2))
  | [] => none

inductive Token
  | char (c : Char)
  | any
  | bol
  | eol
  | star
  | set (b : Bracket)
  | opening
  | closing
  | bar
  | back (n : Nat)
  | repeated (min : Nat) (max : Option Nat)

def number (s : Str) : Nat := s.foldl (fun n c => 10 * n + (c.toNat - '0'.toNat)) 0

/-- The inside of an interval: `m`, `m,` or `m,n` and what closes it. -/
def interval (close s : Str) : Option (Token × Str) :=
  let ds := s.takeWhile Char.isDigit
  let r := s.dropWhile Char.isDigit
  if ds = [] then none
  else if close.isPrefixOf r then
    some (.repeated (number ds) (some (number ds)), r.drop close.length)
  else if r.head? = some ',' then
    let es := r.tail.takeWhile Char.isDigit
    let u := r.tail.dropWhile Char.isDigit
    if close.isPrefixOf u then
      some (.repeated (number ds) (if es = [] then none else some (number es)), u.drop close.length)
    else none
  else none

def escape (c : Char) (s : Str) : Option (Token × Str) :=
  match c with
  | '(' => some (.opening, s)
  | ')' => some (.closing, s)
  | '|' => some (.bar, s)
  | '+' => some (.repeated 1 none, s)
  | '?' => some (.repeated 0 (some 1), s)
  | '{' => interval ['\\', '}'] s
  | c => if '1' ≤ c && c ≤ '9' then some (.back (number [c]), s) else some (.char c, s)

def token (c : Char) (s : Str) : Option (Token × Str) :=
  if c = '\\' then match s with
    | [] => none
    | d :: s => escape d s
  else if c = '.' then some (.any, s)
  else if c = '*' then some (.star, s)
  else if c = '$' ∧ s = [] then some (.eol, s)
  else if c = '[' then (bracket (· == '^') s).map (fun p => (.set p.1, p.2))
  else some (.char c, s)

def ereToken (c : Char) (s : Str) : Option (Token × Str) :=
  if c = '\\' then match s with
    | [] => none
    | d :: s => some (.char d, s)
  else if c = '.' then some (.any, s)
  else if c = '*' then some (.repeated 0 none, s)
  else if c = '+' then some (.repeated 1 none, s)
  else if c = '?' then some (.repeated 0 (some 1), s)
  else if c = '(' then some (.opening, s)
  else if c = ')' then some (.closing, s)
  else if c = '|' then some (.bar, s)
  else if c = '{' then interval ['}'] s
  else if c = '^' then some (.bol, s)
  else if c = '$' then some (.eol, s)
  else if c = '[' then (bracket (· == '^') s).map (fun p => (.set p.1, p.2))
  else some (.char c, s)

def tokens (tok : Char → Str → Option (Token × Str)) : Nat → Str → Option (List Token)
  | _, [] => some []
  | 0, _ => none
  | n + 1, c :: s => (tok c s).bind fun p => (tokens tok n p.2).map (p.1 :: ·)

inductive Regex
  | empty
  | bol
  | eol
  | any
  | lit (c : Char)
  | set (b : Bracket)
  | back (n : Nat)
  | group (n : Nat) (r : Regex)
  | seq (r s : Regex)
  | alt (r s : Regex)
  | repeated (r : Regex) (min : Nat) (max : Option Nat)

/-- An open group: its number, the alternatives before the last `\|`, and what
has been read since, last first. -/
structure Frame where
  id : Nat
  alts : List Regex
  cur : List Regex

def sequence (rs : List Regex) : Regex := rs.foldr .seq .empty

def Frame.push (f : Frame) (r : Regex) : Frame := { f with cur := r :: f.cur }

def Frame.bar (f : Frame) : Frame :=
  { f with alts := f.alts ++ [sequence f.cur.reverse], cur := [] }

def Frame.close (f : Frame) : Regex := f.alts.foldr .alt (sequence f.cur.reverse)

def Frame.repeat (f : Frame) (min : Nat) (max : Option Nat) : Option Frame :=
  match f.cur with
  | [] | [.bol] => none
  | r :: rs => some { f with cur := .repeated r min max :: rs }

/-- A star with nothing to repeat is an ordinary character; any other
repetition with nothing to repeat is an error, and so is an unmatched group. -/
def parse : List Token → Nat → Frame → List Frame → Option Regex
  | [], _, f, [] => some f.close
  | [], _, _, _ :: _ => none
  | t :: ts, n, f, fs => match t with
    | .char c => parse ts n (f.push (.lit c)) fs
    | .any => parse ts n (f.push .any) fs
    | .bol => parse ts n (f.push .bol) fs
    | .eol => parse ts n (f.push .eol) fs
    | .set b => parse ts n (f.push (.set b)) fs
    | .back k => if k ≤ n then parse ts n (f.push (.back k)) fs else none
    | .star => parse ts n ((f.repeat 0 none).getD (f.push (.lit '*'))) fs
    | .repeated min max => (f.repeat min max).bind fun f => parse ts n f fs
    | .bar => parse ts n f.bar fs
    | .opening => parse ts (n + 1) ⟨n + 1, [], []⟩ (f :: fs)
    | .closing => match fs with
      | [] => none
      | g :: fs => parse ts n (g.push (.group f.id f.close)) fs

/-- `regcomp`; `none` when the pattern is refused. A caret is an anchor in the
first place only. -/
def compile (pat : Str) : Option Regex :=
  match pat with
  | '^' :: s => (tokens token s.length s).bind fun ts => parse ts 0 ⟨0, [], [.bol]⟩ []
  | s => (tokens token s.length s).bind fun ts => parse ts 0 ⟨0, [], []⟩ []

/-- `regcomp` with `REG_EXTENDED`. -/
def compileEre (pat : Str) : Option Regex :=
  (tokens ereToken pat.length pat).bind fun ts => parse ts 0 ⟨0, [], []⟩ []

structure Pos where
  first : Bool
  rest : Str
  groups : List (Nat × Str)

def Pos.step (p : Pos) (ok : Char → Bool) : List Pos :=
  match p.rest with
  | [] => []
  | c :: s => if ok c then [⟨false, s, p.groups⟩] else []

def exactly (f : Pos → List Pos) : Nat → Pos → List Pos
  | 0, p => [p]
  | n + 1, p => (f p).flatMap (exactly f n)

def upTo (f : Pos → List Pos) : Nat → Pos → List Pos
  | 0, p => [p]
  | n + 1, p => p :: (f p).flatMap (upTo f n)

/-- Every place a match from `p` can end at. A repetition without a bound is
tried as often as there are characters left, since each useful round takes one. -/
def Regex.run : Regex → Pos → List Pos
  | .empty, p => [p]
  | .bol, p => if p.first then [p] else []
  | .eol, p => if p.rest = [] then [p] else []
  | .any, p => p.step (fun _ => true)
  | .lit c, p => p.step (· == c)
  | .set b, p => p.step b.mem
  | .back n, p => match p.groups.lookup n with
    | none => []
    | some w => if w.isPrefixOf p.rest
      then [⟨p.first && w.isEmpty, p.rest.drop w.length, p.groups⟩] else []
  | .group n r, p => (r.run p).map fun q =>
      { q with groups := (n, p.rest.take (p.rest.length - q.rest.length)) :: q.groups }
  | .seq r s, p => (r.run p).flatMap s.run
  | .alt r s, p => r.run p ++ s.run p
  | .repeated r min max, p => (exactly r.run min p).flatMap fun q =>
      upTo r.run (match max with | none => q.rest.length | some m => m - min) q

def Regex.selects (r : Regex) (line : Str) : Bool :=
  !(r.run ⟨true, line, []⟩).isEmpty || line.tails.tail.any fun s => !(r.run ⟨false, s, []⟩).isEmpty

/-- Whether `grep pat` selects the line. -/
def search (pat line : Str) : Bool :=
  match compile pat with
  | none => false
  | some r => r.selects line

/-- Whether `egrep pat` selects the line. -/
def egrep (pat line : Str) : Bool :=
  match compileEre pat with
  | none => false
  | some r => r.selects line

def longest (pat line : Str) : Option Str :=
  match compile pat with
  | none => none
  | some r => (r.run ⟨true, line, []⟩).foldl (fun best p => match best with
      | none => some p.rest
      | some s => some (if p.rest.length < s.length then p.rest else s)) none

def special (c : Char) : Bool := c == '\\' || c == '*' || c == '['

def Resembles (pat line : Str) : Prop := List.Forall₂ (fun c d => c = '.' ∨ c = d) pat line

@[simp] theorem resembles_nil (s : Str) : Resembles [] s ↔ s = [] := by
  cases s with
  | nil => exact ⟨fun _ => rfl, fun _ => .nil⟩
  | cons d s => exact ⟨nofun, nofun⟩

@[simp] theorem not_resembles_nil (c : Char) (p : Str) : ¬ Resembles (c :: p) [] := nofun

@[simp] theorem resembles_cons (c d : Char) (p s : Str) :
    Resembles (c :: p) (d :: s) ↔ (c = '.' ∨ c = d) ∧ Resembles p s :=
  List.forall₂_cons

def atom (c : Char) : Regex := if c = '.' then .any else .lit c

def Token.plain (c : Char) : Token := if c = '.' then .any else .char c

theorem token_plain (c : Char) (s : Str) (h : special c = false) (hs : s ≠ []) :
    token c s = some (.plain c, s) := by
  simp only [special, Bool.or_eq_false_iff, beq_eq_false_iff_ne] at h
  obtain ⟨⟨h1, h2⟩, h3⟩ := h
  simp only [token, h1, h2, h3, hs, and_false, if_false, Token.plain]
  split <;> rfl

theorem tokens_anchored (p : Str) (h : ∀ c ∈ p, special c = false) :
    tokens token (p ++ ['$']).length (p ++ ['$']) = some (p.map .plain ++ [.eol]) := by
  induction p with
  | nil => rfl
  | cons c p ih =>
      rw [List.cons_append, List.length_cons, tokens, token_plain c _ (h c (by simp)) (by simp),
        Option.bind_some, ih (fun d hd => h d (by simp [hd]))]
      rfl

theorem parse_plain (p : Str) (f : Frame) (ts : List Token) (n : Nat) (fs : List Frame) :
    parse (p.map .plain ++ ts) n f fs =
      parse ts n { f with cur := (p.map atom).reverse ++ f.cur } fs := by
  induction p generalizing f with
  | nil => rfl
  | cons c p ih =>
      rw [List.map_cons, List.cons_append, Token.plain]
      by_cases hc : c = '.'
      · rw [if_pos hc, parse, ih]
        simp [Frame.push, atom, hc]
      · rw [if_neg hc, parse, ih]
        simp [Frame.push, atom, hc]

theorem compile_anchored (p : Str) (h : ∀ c ∈ p, special c = false) :
    compile ('^' :: (p ++ ['$'])) = some (sequence (.bol :: (p.map atom ++ [.eol]))) := by
  rw [compile, tokens_anchored p h, Option.bind_some, parse_plain]
  simp [parse, Frame.push, Frame.close]

theorem run_atoms (p : Str) (b : Bool) (s : Str) :
    ((sequence (p.map atom ++ [.eol])).run ⟨b, s, []⟩).isEmpty = false ↔ Resembles p s := by
  induction p generalizing b s with
  | nil => cases s <;> simp [sequence, Regex.run]
  | cons c p ih =>
      cases s with
      | nil => by_cases hc : c = '.' <;> simp [sequence, Regex.run, atom, Pos.step, hc]
      | cons d s =>
          have hi := ih false s
          by_cases hc : c = '.'
          · simpa [sequence, Regex.run, atom, Pos.step, hc] using hi
          · by_cases hd : d = c
            · subst hd
              simpa [sequence, Regex.run, atom, Pos.step, hc] using hi
            · simp [sequence, Regex.run, atom, Pos.step, hc, hd, Ne.symm hd]

theorem selects_anchored (rs : List Regex) (line : Str) :
    (sequence (.bol :: rs)).selects line = !((sequence rs).run ⟨true, line, []⟩).isEmpty := by
  have hr (s : Str) (b : Bool) : (sequence (.bol :: rs)).run ⟨b, s, []⟩ =
      if b then (sequence rs).run ⟨b, s, []⟩ else [] := by
    cases b <;> simp [sequence, Regex.run]
  simp [Regex.selects, hr]

theorem flatMap_isEmpty {α β : Type} (l : List α) (f : α → List β) :
    (l.flatMap f).isEmpty = false ↔ ∃ a ∈ l, (f a).isEmpty = false := by
  simp [List.flatMap_eq_nil_iff]

theorem run_lit_cons (c : Char) (rs : List Regex) (b : Bool) (s : Str) :
    ((sequence (.lit c :: rs)).run ⟨b, s, []⟩).isEmpty = false ↔
      ∃ u, s = c :: u ∧ ((sequence rs).run ⟨false, u, []⟩).isEmpty = false := by
  cases s with
  | nil => simp [sequence, Regex.run, Pos.step]
  | cons d s => by_cases hd : d = c <;> simp [sequence, Regex.run, Pos.step, hd]

theorem run_lits (w : Str) (rs : List Regex) (b : Bool) (s : Str) :
    ((sequence (w.map .lit ++ rs)).run ⟨b, s, []⟩).isEmpty = false ↔
      ∃ u, s = w ++ u ∧ ((sequence rs).run ⟨b && w.isEmpty, u, []⟩).isEmpty = false := by
  induction w generalizing b s with
  | nil => simp
  | cons c w ih =>
      rw [List.map_cons, List.cons_append, run_lit_cons]
      constructor
      · rintro ⟨u, rfl, hu⟩
        obtain ⟨v, rfl, hv⟩ := (ih false u).mp hu
        exact ⟨v, rfl, by simpa using hv⟩
      · rintro ⟨u, rfl, hu⟩
        exact ⟨w ++ u, rfl, (ih false _).mpr ⟨u, rfl, by simpa using hu⟩⟩

theorem mem_step (ok : Char → Bool) (b : Bool) (s : Str) (q : Pos) :
    q ∈ (⟨b, s, []⟩ : Pos).step ok ↔ ∃ c u, s = c :: u ∧ ok c = true ∧ q = ⟨false, u, []⟩ := by
  cases s with
  | nil => simp [Pos.step]
  | cons d s => by_cases hd : ok d = true <;> simp [Pos.step, hd]

theorem mem_upTo_step (ok : Char → Bool) (n : Nat) (b : Bool) (s : Str) (q : Pos) :
    q ∈ upTo (fun p => p.step ok) n ⟨b, s, []⟩ ↔ ∃ w u, s = w ++ u ∧ w.length ≤ n ∧
      (∀ c ∈ w, ok c = true) ∧ q = ⟨b && w.isEmpty, u, []⟩ := by
  induction n generalizing b s with
  | zero =>
      simp only [upTo, List.mem_singleton]
      constructor
      · rintro rfl
        exact ⟨[], s, rfl, Nat.le_refl 0, by simp, by simp⟩
      · rintro ⟨w, u, rfl, hw, _, rfl⟩
        simp [List.length_eq_zero_iff.mp (Nat.le_zero.mp hw)]
  | succ n ih =>
      rw [upTo, List.mem_cons, List.mem_flatMap]
      constructor
      · rintro (rfl | ⟨p, hp, hq⟩)
        · exact ⟨[], s, rfl, by simp, by simp, by simp⟩
        · obtain ⟨c, u, rfl, hc, rfl⟩ := (mem_step ok b s p).mp hp
          obtain ⟨w, v, rfl, hw, hok, rfl⟩ := (ih false u).mp hq
          exact ⟨c :: w, v, rfl, by simpa using hw, by simpa [hc] using hok, by simp⟩
      · rintro ⟨w, u, rfl, hw, hok, rfl⟩
        cases w with
        | nil => exact .inl (by simp)
        | cons c w =>
            refine .inr ⟨⟨false, w ++ u, []⟩, ?_, ?_⟩
            · exact (mem_step ok b _ _).mpr ⟨c, w ++ u, rfl, hok c (by simp), rfl⟩
            · exact (ih false _).mpr ⟨w, u, rfl, by simpa using hw,
                fun d hd => hok d (by simp [hd]), by simp⟩

theorem run_plus_cons (m : Bracket) (rs : List Regex) (b : Bool) (s : Str) :
    ((sequence (.repeated (.set m) 1 none :: rs)).run ⟨b, s, []⟩).isEmpty = false ↔
      ∃ w u, s = w ++ u ∧ w ≠ [] ∧ (∀ c ∈ w, m.mem c = true) ∧
        ((sequence rs).run ⟨false, u, []⟩).isEmpty = false := by
  have hrun : (sequence (.repeated (.set m) 1 none :: rs)).run ⟨b, s, []⟩ =
      (((⟨b, s, []⟩ : Pos).step m.mem).flatMap fun p =>
        upTo (fun p => p.step m.mem) p.rest.length p).flatMap (sequence rs).run := by
    simp only [sequence, List.foldr_cons, Regex.run, exactly]
    rw [List.flatMap_singleton']
  rw [hrun, flatMap_isEmpty]
  constructor
  · rintro ⟨q, hq, hr⟩
    obtain ⟨p, hp, hq⟩ := List.mem_flatMap.mp hq
    obtain ⟨c, u, rfl, hc, rfl⟩ := (mem_step _ _ _ _).mp hp
    obtain ⟨w, v, rfl, _, hok, rfl⟩ := (mem_upTo_step _ _ _ _ _).mp hq
    exact ⟨c :: w, v, rfl, by simp, by simpa [hc] using hok, by simpa using hr⟩
  · rintro ⟨w, u, rfl, hw, hok, hr⟩
    obtain ⟨c, w, rfl⟩ := List.exists_cons_of_ne_nil hw
    refine ⟨⟨false, u, []⟩, List.mem_flatMap.mpr ⟨⟨false, w ++ u, []⟩, ?_, ?_⟩, hr⟩
    · exact (mem_step _ _ _ _).mpr ⟨c, w ++ u, rfl, hok c (by simp), rfl⟩
    · exact (mem_upTo_step _ _ _ _ _).mpr ⟨w, u, rfl, by
        simp, fun d hd => hok d (by simp [hd]), by simp⟩

theorem search_anchored (p line : Str) (h : ∀ c ∈ p, special c = false) :
    search ('^' :: (p ++ ['$'])) line = true ↔ Resembles p line := by
  rw [search, compile_anchored p h]
  simp only [selects_anchored, Bool.not_eq_true']
  exact run_atoms p true line

theorem resembles_self (p : Str) : Resembles p p := by
  induction p with
  | nil => exact .nil
  | cons c p ih => exact .cons (.inr rfl) ih

theorem Resembles.eq_of_no_dot {p line : Str} (h : Resembles p line) (hp : '.' ∉ p) : line = p := by
  induction h with
  | nil => rfl
  | cons hc _ ih =>
      simp only [List.mem_cons, not_or] at hp
      rw [ih hp.2, hc.resolve_left (Ne.symm hp.1)]

end Fidelix.Text
