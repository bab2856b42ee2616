import Fidelix.Text.Bre

namespace Fidelix.Text

inductive Regex.Simple : Regex → Prop
  | any : Simple .any
  | lit (c : Char) : Simple (.lit c)
  | set (b : Bracket) : Simple (.set b)
  | repeated {r : Regex} (h : Simple r) : Simple (.repeated r 0 none)

def Regex.least : Regex → Nat
  | .repeated _ _ _ => 0
  | _ => 1

theorem upTo_suffix {f : Pos → List Pos}
    (hf : ∀ p q, p.groups = [] → q ∈ f p → q.groups = [] ∧ q.rest <:+ p.rest) (n : Nat) (p q : Pos)
    (hp : p.groups = []) (hq : q ∈ upTo f n p) : q.groups = [] ∧ q.rest <:+ p.rest := by
  induction n generalizing p with
  | zero =>
      rw [List.mem_singleton.mp hq]
      exact ⟨hp, List.suffix_refl _⟩
  | succ n ih =>
      rcases List.mem_cons.mp hq with rfl | hq
      · exact ⟨hp, List.suffix_refl _⟩
      · obtain ⟨r, hr, hq⟩ := List.mem_flatMap.mp hq
        obtain ⟨hg, hs⟩ := hf p r hp hr
        obtain ⟨hg', hs'⟩ := ih r hg hq
        exact ⟨hg', hs'.trans hs⟩

theorem step_suffix (ok : Char → Bool) (p q : Pos) (hp : p.groups = []) (hq : q ∈ p.step ok) :
    q.groups = [] ∧ q.rest <:+ p.rest := by
  obtain ⟨b, s, g⟩ := p
  simp only at hp
  subst hp
  obtain ⟨c, u, rfl, _, rfl⟩ := (mem_step ok b s q).mp hq
  exact ⟨rfl, List.suffix_cons c u⟩

theorem Regex.Simple.suffix {r : Regex} (h : r.Simple) (p q : Pos) (hp : p.groups = [])
    (hq : q ∈ r.run p) :
    q.groups = [] ∧ q.rest <:+ p.rest := by
  induction h generalizing p q with
  | any => exact step_suffix _ p q hp hq
  | lit c => exact step_suffix _ p q hp hq
  | set b => exact step_suffix _ p q hp hq
  | repeated _ ih =>
      simp only [Regex.run, exactly, List.flatMap_cons, List.flatMap_nil, List.append_nil] at hq
      exact upTo_suffix (fun p q => ih p q) _ p q hp hq

theorem mem_upTo_self (f : Pos → List Pos) (n : Nat) (p : Pos) : p ∈ upTo f n p := by
  cases n <;> simp [upTo]

theorem shortest_step (ok : Char → Bool) {b : Bool} {s : Str} {q : Pos}
    (h : q ∈ (⟨b, s, []⟩ : Pos).step ok) :
    ∃ w, w.length = 1 ∧ (∀ c ∈ w, c ∈ s) ∧
      ∀ b' u, (⟨b' && w.isEmpty, u, []⟩ : Pos) ∈ (⟨b', w ++ u, []⟩ : Pos).step ok := by
  obtain ⟨c, u, rfl, hc, _⟩ := (mem_step ok b s q).mp h
  refine ⟨[c], rfl, by simp, fun b' v => ?_⟩
  exact (mem_step ok b' _ _).mpr ⟨c, v, rfl, hc, by simp⟩

theorem Regex.Simple.shortest {r : Regex} (h : r.Simple) {b : Bool} {s : Str} {q : Pos}
    (hq : q ∈ r.run ⟨b, s, []⟩) :
    ∃ w, w.length = r.least ∧ (∀ c ∈ w, c ∈ s) ∧
      ∀ b' u, (⟨b' && w.isEmpty, u, []⟩ : Pos) ∈ r.run ⟨b', w ++ u, []⟩ := by
  cases h with
  | any => exact shortest_step _ hq
  | lit c => exact shortest_step _ hq
  | set m => exact shortest_step _ hq
  | repeated _ =>
      refine ⟨[], rfl, by simp, fun b' u => ?_⟩
      simp only [Regex.run, exactly, List.flatMap_cons, List.flatMap_nil, List.append_nil]
      simpa using mem_upTo_self _ _ (⟨b', u, []⟩ : Pos)

def least (rs : List Regex) : Nat := (rs.map Regex.least).sum

theorem shortest_line {rs : List Regex} (hrs : ∀ r ∈ rs, r.Simple) {b : Bool} {s : Str}
    (h : ((sequence (rs ++ [.eol])).run ⟨b, s, []⟩).isEmpty = false) :
    ∃ w, w.length = least rs ∧ (∀ c ∈ w, c ∈ s) ∧
      ∀ b', ((sequence (rs ++ [.eol])).run ⟨b', w, []⟩).isEmpty = false := by
  induction rs generalizing b s with
  | nil => exact ⟨[], rfl, by simp, fun b' => by simp [sequence, Regex.run]⟩
  | cons r rs ih =>
      have hr := hrs r (by simp)
      have hseq (p : Pos) : (sequence (r :: rs ++ [.eol])).run p =
          (r.run p).flatMap (sequence (rs ++ [.eol])).run := rfl
      rw [hseq, flatMap_isEmpty] at h
      obtain ⟨q, hq, hrest⟩ := h
      obtain ⟨hg, hsuf⟩ := hr.suffix _ _ rfl hq
      obtain ⟨qb, qs, qg⟩ := q
      simp only at hg hsuf
      subst hg
      obtain ⟨w, hw, hws, hwr⟩ := hr.shortest hq
      obtain ⟨v, hv, hvs, hvr⟩ := ih (fun x hx => hrs x (List.mem_cons_of_mem _ hx)) hrest
      refine ⟨w ++ v, ?_, fun c hc => ?_, fun b' => ?_⟩
      · rw [List.length_append, hw, hv]
        simp [least]
      · rcases List.mem_append.mp hc with hc | hc
        · exact hws c hc
        · exact hsuf.subset (hvs c hc)
      · rw [hseq, flatMap_isEmpty]
        exact ⟨_, hwr b' v, hvr _⟩

def Closes (s r : Str) : Prop := ∃ p, s = p ++ ']' :: r

theorem Closes.append {s r : Str} (h : Closes s r) (p : Str) : Closes (p ++ s) r := by
  obtain ⟨q, rfl⟩ := h
  exact ⟨p ++ q, by simp⟩

theorem closes_cons (c : Char) {s r : Str} (h : Closes s r) : Closes (c :: s) r := h.append [c]

theorem map_rest {x : Item} {o : Option (List Item × Str)} {is : List Item} {r : Str}
    (h : o.map (fun p => (x :: p.1, p.2)) = some (is, r)) : ∃ js, o = some (js, r) := by
  obtain ⟨⟨js, u⟩, ho, he⟩ := Option.map_eq_some_iff.mp h
  simp only [Prod.mk.injEq] at he
  exact ⟨js, by rw [ho, he.2]⟩

theorem bracketItems_closes {n : Nat} {first : Bool} {s r : Str} {is : List Item}
    (h : bracketItems n first s = some (is, r)) : Closes s r := by
  induction n generalizing first s is with
  | zero => simp [bracketItems] at h
  | succ n ih =>
      unfold bracketItems at h
      split at h
      · cases h
      · rename_i s
        simp only at h
        split at h
        · rename_i u hu
          obtain ⟨js, hj⟩ := map_rest h
          have hs : s = s.takeWhile (· != ':') ++ ':' :: ']' :: u := by
            rw [← hu, List.takeWhile_append_dropWhile]
          have hc : Closes (s.takeWhile (· != ':') ++ ':' :: ']' :: u) r :=
            (closes_cons ':' (closes_cons ']' (ih hj))).append _
          rw [← hs] at hc
          exact closes_cons '[' (closes_cons ':' hc)
        · cases h
      · obtain ⟨js, hj⟩ := map_rest h
        exact (ih hj).append ['[', '.', _, '.', ']']
      · obtain ⟨js, hj⟩ := map_rest h
        exact (ih hj).append ['[', '=', _, '=', ']']
      · rename_i lo hi s
        split at h
        · rename_i hlo
          simp only [Bool.and_eq_true, decide_eq_true_eq] at hlo
          simp only [Option.some.injEq, Prod.mk.injEq] at h
          exact ⟨[], by rw [hlo.1, ← h.2]; rfl⟩
        · split at h
          · rename_i hhi
            simp only [Option.some.injEq, Prod.mk.injEq] at h
            exact ⟨[lo, '-'], by rw [hhi, h.2]; rfl⟩
          · obtain ⟨js, hj⟩ := map_rest h
            exact (ih hj).append [lo, '-', hi]
      · rename_i c s _ _ _ _
        split at h
        · rename_i hc
          simp only [Bool.and_eq_true, decide_eq_true_eq] at hc
          simp only [Option.some.injEq, Prod.mk.injEq] at h
          exact ⟨[], by rw [hc.1, ← h.2]; rfl⟩
        · obtain ⟨js, hj⟩ := map_rest h
          exact closes_cons c (ih hj)

theorem bracket_closes {neg : Char → Bool} {s r : Str} {b : Bracket}
    (h : bracket neg s = some (b, r)) : Closes s r := by
  unfold bracket at h
  split at h
  · rename_i c u
    split at h
    · obtain ⟨⟨is, v⟩, hi, he⟩ := Option.map_eq_some_iff.mp h
      simp only [Prod.mk.injEq] at he
      exact closes_cons c (bracketItems_closes (he.2 ▸ hi))
    · obtain ⟨⟨is, v⟩, hi, he⟩ := Option.map_eq_some_iff.mp h
      simp only [Prod.mk.injEq] at he
      exact bracketItems_closes (he.2 ▸ hi)
  · cases h

inductive Reads : Str → List Token → Prop
  | nil : Reads [] []
  | char {c : Char} {s : Str} {ts : List Token} (h1 : c ≠ '.') (h2 : c ≠ '*') (h3 : c ≠ '[')
    (h : Reads s ts) :
      Reads (c :: s) (.char c :: ts)
  | any {s : Str} {ts : List Token} (h : Reads s ts) : Reads ('.' :: s) (.any :: ts)
  | star {s : Str} {ts : List Token} (h : Reads s ts) : Reads ('*' :: s) (.star :: ts)
  | set {p s : Str} {b : Bracket} {ts : List Token} (h : Reads s ts) :
  Reads ('[' :: (p ++ ']' :: s)) (.set b :: ts)

theorem tokens_reads {n : Nat} {l : Str} {us : List Token} (hl : '\\' ∉ l)
    (h : tokens token n (l ++ ['$']) = some us) :
    ∃ ts, us = ts ++ [.eol] ∧ Reads l ts := by
  induction n generalizing l us with
  | zero => cases l <;> simp [tokens] at h
  | succ n ih =>
      cases l with
      | nil =>
          have he : tokens token (n + 1) ([] ++ ['$']) = some [.eol] := by cases n <;> rfl
          exact ⟨[], by rw [← Option.some.inj (he.symm.trans h)]; rfl, .nil⟩
      | cons c s =>
          have hc : c ≠ '\\' := fun he => hl (by simp [he])
          have hs : '\\' ∉ s := fun hm => hl (List.mem_cons_of_mem _ hm)
          rw [List.cons_append, tokens, Option.bind_eq_some_iff] at h
          obtain ⟨⟨t, r⟩, ht, hr⟩ := h
          obtain ⟨vs, hv, rfl⟩ := Option.map_eq_some_iff.mp hr
          simp only [token, hc, if_false, List.append_eq_nil_iff, List.cons_ne_nil, and_false] at ht
          split at ht
          · rename_i hd
            obtain ⟨rfl, rfl⟩ := Prod.mk.inj (Option.some.inj ht)
            obtain ⟨ts, rfl, hrd⟩ := ih hs hv
            exact ⟨.any :: ts, rfl, hd ▸ .any hrd⟩
          · split at ht
            · rename_i hd
              obtain ⟨rfl, rfl⟩ := Prod.mk.inj (Option.some.inj ht)
              obtain ⟨ts, rfl, hrd⟩ := ih hs hv
              exact ⟨.star :: ts, rfl, hd ▸ .star hrd⟩
            · split at ht
              · rename_i hd
                obtain ⟨⟨b, u⟩, hb, he⟩ := Option.map_eq_some_iff.mp ht
                obtain ⟨rfl, rfl⟩ := Prod.mk.inj he
                -- the last character closes no bracket, so it is behind this one
                obtain ⟨p, hp⟩ := bracket_closes hb
                have hu : u ≠ [] := by
                  rintro rfl
                  have := congrArg List.getLast? hp
                  simp at this
                obtain ⟨v, d, rfl⟩ := List.eq_nil_or_concat u |>.resolve_left hu
                have hsplit : s ++ ['$'] = (p ++ ']' :: v) ++ [d] := by rw [hp]; simp
                obtain ⟨rfl, hdd⟩ := List.append_inj' hsplit rfl
                obtain rfl : '$' = d := (List.cons.inj hdd).1
                rw [List.concat_eq_append] at hv
                obtain ⟨ts, rfl, hrd⟩ := ih (fun hm => hs (by simp [hm])) hv
                exact ⟨.set b :: ts, rfl, hd ▸ .set hrd⟩
              · obtain ⟨rfl, rfl⟩ := Prod.mk.inj (Option.some.inj ht)
                obtain ⟨ts, rfl, hrd⟩ := ih hs hv
                exact ⟨.char c :: ts, rfl, .char ‹_› ‹_› ‹_› hrd⟩

def pushed (xs : List Regex) : Token → List Regex
  | .char c => .lit c :: xs
  | .any => .any :: xs
  | .set b => .set b :: xs
  | .star => match xs with
    | [] => [.lit '*']
    | r :: rs => .repeated r 0 none :: rs
  | _ => xs

theorem parse_reads {l : Str} {ts : List Token} (h : Reads l ts) (xs : List Regex) :
    parse (ts ++ [.eol]) 0 ⟨0, [], xs ++ [.bol]⟩ [] =
      some (sequence (.bol :: ((ts.foldl pushed xs).reverse ++ [.eol]))) := by
  induction h generalizing xs with
  | nil => simp [parse, Frame.push, Frame.close]
  | char _ _ _ _ ih => exact ih (.lit _ :: xs)
  | any _ ih => exact ih (.any :: xs)
  | @star s ts _ ih =>
      rw [List.cons_append, parse, List.foldl_cons]
      cases xs with
      | nil => exact ih [.lit '*']
      | cons r rs =>
          have hrep : Frame.repeat ⟨0, [], r :: rs ++ [.bol]⟩ 0 none =
              some ⟨0, [], .repeated r 0 none :: rs ++ [.bol]⟩ := by
            cases rs <;> cases r <;> rfl
          rw [hrep, Option.getD_some]
          exact ih (.repeated r 0 none :: rs)
  | set _ ih => exact ih (.set _ :: xs)

theorem pushed_simple {l : Str} {ts : List Token} (h : Reads l ts) (xs : List Regex)
    (hxs : ∀ r ∈ xs, r.Simple) :
    ∀ r ∈ ts.foldl pushed xs, r.Simple := by
  induction h generalizing xs with
  | nil => exact hxs
  | char _ _ _ _ ih => exact ih _ (List.forall_mem_cons.mpr ⟨.lit _, hxs⟩)
  | any _ ih => exact ih _ (List.forall_mem_cons.mpr ⟨.any, hxs⟩)
  | star _ ih =>
      cases xs with
      | nil => exact ih _ (List.forall_mem_cons.mpr ⟨.lit _, hxs⟩)
      | cons r rs =>
          obtain ⟨hr, hrs⟩ := List.forall_mem_cons.mp hxs
          exact ih _ (List.forall_mem_cons.mpr ⟨.repeated hr, hrs⟩)
  | set _ ih => exact ih _ (List.forall_mem_cons.mpr ⟨.set _, hxs⟩)

@[simp] theorem least_nil : least [] = 0 := rfl

@[simp] theorem least_cons (r : Regex) (rs : List Regex) :
    least (r :: rs) = r.least + least rs := by
  simp [least]

theorem least_pushed {l : Str} {ts : List Token} (h : Reads l ts) (xs : List Regex) :
    least (ts.foldl pushed xs) ≤ least xs + l.length ∧
      (least (ts.foldl pushed xs) = least xs + l.length → '[' ∉ l ∧
        '*' ∉ (if xs = [] then l.tail else l)) := by
  induction h generalizing xs with
  | nil => simp
  | @char c s ts _ h2 h3 _ ih =>
      obtain ⟨h, heq⟩ := ih (.lit c :: xs)
      simp only [List.foldl_cons, pushed, least_cons, Regex.least, List.length_cons] at h heq ⊢
      refine ⟨by omega, fun he => ?_⟩
      obtain ⟨hb, hs⟩ := heq (by omega)
      simp only [List.cons_ne_nil, if_false] at hs
      refine ⟨by simp [hb, Ne.symm h3], ?_⟩
      split
      · exact hs
      · simp [hs, Ne.symm h2]
  | @any s ts _ ih =>
      obtain ⟨h, heq⟩ := ih (.any :: xs)
      simp only [List.foldl_cons, pushed, least_cons, Regex.least, List.length_cons] at h heq ⊢
      refine ⟨by omega, fun he => ?_⟩
      obtain ⟨hb, hs⟩ := heq (by omega)
      simp only [List.cons_ne_nil, if_false] at hs
      refine ⟨by simp [hb], ?_⟩
      split
      · exact hs
      · simp [hs]
  | @star s ts _ ih =>
      cases xs with
      | nil =>
          obtain ⟨h, heq⟩ := ih [.lit '*']
          simp only [List.foldl_cons, pushed, least_cons, least_nil, Regex.least,
            List.length_cons] at h heq ⊢
          refine ⟨by omega, fun he => ?_⟩
          obtain ⟨hb, hs⟩ := heq (by omega)
          simp only [List.cons_ne_nil, if_false] at hs
          exact ⟨by simp [hb], by simpa using hs⟩
      | cons r rs =>
          obtain ⟨h, _⟩ := ih (.repeated r 0 none :: rs)
          simp only [List.foldl_cons, pushed, least_cons, Regex.least, List.length_cons] at h ⊢
          exact ⟨by omega, fun he => by omega⟩
  | @set p s b ts _ ih =>
      obtain ⟨h, _⟩ := ih (.set b :: xs)
      simp only [List.foldl_cons, pushed, least_cons, Regex.least, List.length_cons,
        List.length_append] at h ⊢
      exact ⟨by omega, fun he => by omega⟩

def Token.lone : Token → Prop
  | .char _ | .any | .eol | .star | .set _ => True
  | _ => False

theorem tokens_lone {n : Nat} {s : Str} {ts : List Token} (hs : '\\' ∉ s)
    (h : tokens token n s = some ts) :
    ∀ t ∈ ts, t.lone := by
  induction n generalizing s ts with
  | zero =>
      cases s with
      | nil => simp [← Option.some.inj h]
      | cons c s => cases h
  | succ n ih =>
      cases s with
      | nil => simp [← Option.some.inj h]
      | cons c s =>
          have hc : c ≠ '\\' := fun he => hs (by simp [he])
          have hs' : '\\' ∉ s := fun hm => hs (List.mem_cons_of_mem _ hm)
          rw [tokens, Option.bind_eq_some_iff] at h
          obtain ⟨⟨t, r⟩, ht, hr⟩ := h
          obtain ⟨us, hu, rfl⟩ := Option.map_eq_some_iff.mp hr
          have hnext : t.lone ∧ '\\' ∉ r := by
            simp only [token, hc, if_false] at ht
            split at ht
            · obtain ⟨rfl, rfl⟩ := Prod.mk.inj (Option.some.inj ht)
              exact ⟨trivial, hs'⟩
            · split at ht
              · obtain ⟨rfl, rfl⟩ := Prod.mk.inj (Option.some.inj ht)
                exact ⟨trivial, hs'⟩
              · split at ht
                · obtain ⟨rfl, rfl⟩ := Prod.mk.inj (Option.some.inj ht)
                  exact ⟨trivial, hs'⟩
                · split at ht
                  · obtain ⟨⟨b, u⟩, hb, he⟩ := Option.map_eq_some_iff.mp ht
                    obtain ⟨rfl, rfl⟩ := Prod.mk.inj he
                    obtain ⟨p, rfl⟩ := bracket_closes hb
                    exact ⟨trivial, fun hm => hs' (by simp [hm])⟩
                  · obtain ⟨rfl, rfl⟩ := Prod.mk.inj (Option.some.inj ht)
                    exact ⟨trivial, hs'⟩
          exact List.forall_mem_cons.mpr ⟨hnext.1, ih hnext.2 hu⟩

theorem parse_front {ts : List Token} (ht : ∀ t ∈ ts, t.lone) {n : Nat} {x : Regex}
    {xs : List Regex} {r : Regex} (h : parse ts n ⟨0, [], x :: xs⟩ [] = some r) :
    ∃ ys, r = sequence (xs.reverse ++ ys) := by
  induction ts generalizing x xs with
  | nil => exact ⟨[x], by simpa [parse, Frame.close] using h.symm⟩
  | cons t ts ih =>
      obtain ⟨hl, hts⟩ := List.forall_mem_cons.mp ht
      have hpush (y : Regex) (hy : parse ts n ⟨0, [], y :: x :: xs⟩ [] = some r) :
          ∃ ys, r = sequence (xs.reverse ++ ys) := by
        obtain ⟨ys, rfl⟩ := ih hts hy
        exact ⟨x :: ys, by simp⟩
      cases t with
      | star =>
          rw [parse] at h
          cases hr : Frame.repeat ⟨0, [], x :: xs⟩ 0 none with
          | none =>
              rw [hr, Option.getD_none] at h
              exact hpush _ h
          | some f =>
              have hf : f = ⟨0, [], .repeated x 0 none :: xs⟩ := by
                rw [Frame.repeat] at hr
                split at hr
                · cases hr
                · cases hr
                · rename_i hcur
                  obtain ⟨rfl, rfl⟩ := List.cons.inj hcur
                  exact (Option.some.inj hr).symm
              rw [hr, Option.getD_some, hf] at h
              exact ih hts h
      | char c => exact hpush _ h
      | any => exact hpush _ h
      | eol => exact hpush _ h
      | set b => exact hpush _ h
      | _ => exact hl.elim

def StarFirst (l : Str) : Prop := '\\' ∉ l ∧ '[' ∉ l ∧ '*' ∉ l.tail

theorem special_iff {c : Char} : special c = false ↔ c ≠ '\\' ∧ c ≠ '*' ∧ c ≠ '[' := by
  simp [special, and_assoc]

theorem search_resembles {l : Str} (h : StarFirst l) (line : Str) :
    search ('^' :: (l ++ ['$'])) line = true ↔ Resembles l line := by
  obtain ⟨hb, hs, ht⟩ := h
  cases l with
  | nil => exact search_anchored [] line (by simp)
  | cons c p =>
      have hp : ∀ d ∈ p, special d = false := fun d hd => special_iff.mpr
        ⟨fun he => hb (he ▸ List.mem_cons_of_mem c hd), fun he => ht (he ▸ hd), fun he =>
          hs (he ▸ List.mem_cons_of_mem c hd)⟩
      by_cases hc : c = '*'
      · subst hc
        have hcomp : compile ('^' :: ('*' :: p ++ ['$'])) =
            some (sequence (.bol :: .lit '*' :: (p.map atom ++ [.eol]))) := by
          rw [compile, List.cons_append, List.length_cons, tokens,
            show token '*' (p ++ ['$']) = some (.star, p ++ ['$']) from rfl,
            Option.bind_some, tokens_anchored p hp]
          simp only [Option.map_some, Option.bind_some]
          rw [parse, show (Frame.repeat ⟨0, [], [.bol]⟩ 0 none) = none from rfl, Option.getD_none,
            Frame.push, parse_plain]
          simp [parse, Frame.push, Frame.close]
        rw [search, hcomp]
        simp only [selects_anchored, Bool.not_eq_true', run_lit_cons, run_atoms]
        cases line with
        | nil => simp
        | cons d s => simp [eq_comm]
      · apply search_anchored
        intro d hd
        rcases List.mem_cons.mp hd with rfl | hd
        · exact special_iff.mpr ⟨fun he => hb (by simp [he]), hc, fun he => hs (by simp [he])⟩
        · exact hp d hd

theorem selects_self_iff {l : Str} (hb : '\\' ∉ l) (hn : '\n' ∉ l) :
    (∀ line, '\n' ∉ line → (search ('^' :: (l ++ ['$'])) line = true ↔ line = l)) ↔
      '.' ∉ l ∧ '[' ∉ l ∧ '*' ∉ l.tail := by
  constructor
  · intro h
    have hself := (h l hn).mpr rfl
    have hstar : StarFirst l := by
      rw [search] at hself
      split at hself
      · cases hself
      · rename_i r hr
        obtain ⟨us, hus, hparse⟩ := Option.bind_eq_some_iff.mp hr
        obtain ⟨ts, rfl, hreads⟩ := tokens_reads hb hus
        have hform := parse_reads hreads []
        rw [List.nil_append] at hform
        obtain rfl := Option.some.inj (hform.symm.trans hparse)
        rw [selects_anchored, Bool.not_eq_true'] at hself
        have hsimple := pushed_simple hreads [] (by simp)
        obtain ⟨w, hw, hws, hwr⟩ :=
          shortest_line (fun x hx => hsimple x (List.mem_reverse.mp hx)) hself
        have hsel : search ('^' :: (l ++ ['$'])) w = true := by
          rw [search, hr]
          simp only [selects_anchored, Bool.not_eq_true']
          exact hwr true
        have hwl := (h w fun hm => hn (hws _ hm)).mp hsel
        have hlen : least (ts.foldl pushed []) = least [] + l.length := by
          have hrev : least (ts.foldl pushed []).reverse = least (ts.foldl pushed []) := by
            rw [least, List.map_reverse, List.sum_reverse, least]
          rw [← hwl, hw, hrev, least_nil, Nat.zero_add]
        obtain ⟨h1, h2⟩ := (least_pushed hreads []).2 hlen
        exact ⟨hb, h1, by simpa using h2⟩
    refine ⟨fun hdot => ?_, hstar.2.1, hstar.2.2⟩
    have hother : Resembles l (l.map fun c => if c = '.' then 'a' else c) := by
      rw [Resembles, List.forall₂_map_right_iff, List.forall₂_same]
      intro c _
      by_cases hc : c = '.' <;> simp [hc]
    have heq := (h _ ?_).mp ((search_resembles hstar _).mpr hother)
    · rw [← heq] at hdot
      obtain ⟨c, _, hc⟩ := List.mem_map.mp hdot
      split at hc
      · exact absurd hc (by decide)
      · exact absurd hc ‹_›
    · intro hm
      obtain ⟨c, hcm, hc⟩ := List.mem_map.mp hm
      split at hc
      · exact absurd hc (by decide)
      · exact hn (hc ▸ hcm)
  · rintro ⟨hdot, h1, h2⟩ line _
    rw [search_resembles ⟨hb, h1, h2⟩]
    exact ⟨fun hr => hr.eq_of_no_dot hdot, fun he => he ▸ resembles_self l⟩

end Fidelix.Text
