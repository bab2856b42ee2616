import Fidelix.Files.Utilities

namespace Fidelix.Files

open Text

theorem names_append_name (a n : Str) (ha : a = [] ∨ a.getLast? = some '/') (hn : n ≠ [])
    (hs : '/' ∉ n) :
    names (a ++ n) = names a ++ [n] := by
  rcases ha with rfl | ha
  · simpa using names_of_not_mem n hn hs
  · obtain ⟨b, rfl⟩ := List.getLast?_eq_some_iff.mp ha
    rw [List.append_assoc, List.singleton_append, names_append_slash, names_append_slash,
      names_of_not_mem n hn hs, names_nil, List.append_nil]

theorem exists_dir_name (s : Str) (hs : s ≠ []) (hl : s.getLast? ≠ some '/') :
    ∃ a n, s = a ++ n ∧ (a = [] ∨ a.getLast? = some '/') ∧ n ≠ [] ∧ '/' ∉ n := by
  induction s with
  | nil => exact absurd rfl hs
  | cons c s ih =>
      by_cases he : s = []
      · subst he
        exact ⟨[], [c], rfl, .inl rfl, by simp, by simpa using Ne.symm hl⟩
      · obtain ⟨a, n, rfl, ha, hn, hm⟩ := ih he (by rwa [List.getLast?_cons_of_ne_nil he] at hl)
        rcases ha with rfl | ha
        · by_cases hc : c = '/'
          · exact ⟨[c], n, rfl, .inr (by simp [hc]), hn, hm⟩
          · exact ⟨[], c :: n, rfl, .inl rfl, by simp, by simpa [Ne.symm hc] using hm⟩
        · refine ⟨c :: a, n, rfl, .inr ?_, hn, hm⟩
          rw [List.getLast?_cons_of_ne_nil (by rintro rfl; simp at ha), ha]

theorem comps_append_name (a n : Str) (ha : a = [] ∨ a.getLast? = some '/') (hn : n ≠ [])
    (hs : '/' ∉ n) :
    comps (a ++ n) = names a ++ [n] := by
  have hl : (a ++ n).getLast? ≠ some '/' := by
    rw [List.getLast?_append_of_ne_nil _ hn]
    exact fun h => hs (List.mem_of_getLast? h)
  rw [comps, names_append_name a n ha hn hs, if_neg hl, List.append_nil]

def NamesFile (s : Str) : Prop :=
  s.getLast? ≠ some '/' ∧ ∃ n ∈ (names s).getLast?.toList, n ≠ dot ∧ n ≠ dotdot

instance (s : Str) : Decidable (NamesFile s) := inferInstanceAs (Decidable (_ ∧ _))

theorem NamesFile.append {s x : Str} (hs : NamesFile s) (hx : '/' ∉ x) (hne : x ≠ [])
    (hd : ∀ n, n ++ x ≠ dot ∧ n ++ x ≠ dotdot) : NamesFile (s ++ x) := by
  obtain ⟨hl, n, hn, _⟩ := hs
  have hs0 : s ≠ [] := by
    rintro rfl
    simp at hn
  obtain ⟨a, m, rfl, ha, hm, hms⟩ := exists_dir_name s hs0 hl
  refine ⟨?_, m ++ x, ?_, hd m⟩
  · rw [List.getLast?_append_of_ne_nil _ hne]
    exact fun h => hx (List.mem_of_getLast? h)
  · rw [List.append_assoc, names_append_name a (m ++ x) ha (by simp [hm]) (by simp [hms, hx]),
      List.getLast?_concat]
    simp

theorem NamesFile.member {s : Str} (hs : NamesFile s) :
    ∃ n, (names (dot ++ '/' :: s)).getLast? = some n ∧ n ≠ dot ∧ n ≠ dotdot := by
  obtain ⟨_, n, hn, h1, h2⟩ := hs
  rw [Option.mem_toList] at hn
  have hne : names s ≠ [] := by
    intro he
    simp [he] at hn
  exact ⟨n, by rw [names_append_slash, List.getLast?_append_of_ne_nil _ hne, hn], h1, h2⟩

namespace Tree

theorem walk_dot (t : Tree) (k : Nat) (cur : Loc) (cs : List Str) :
    t.walk k cur (dot :: cs) = t.walk k cur cs := by
  cases k <;> rfl

theorem placeAt_dot (t : Tree) (cur : Loc) {cs : List Str} (h : cs ≠ []) :
    t.placeAt cur (dot :: cs) = t.placeAt cur cs := by
  rw [placeAt, placeAt, List.getLast?_cons_of_ne_nil h, List.dropLast_cons_of_ne_nil h]
  simp only [walk_dot]

theorem statAt_dot (t : Tree) (cur : Loc) {cs : List Str} (h : cs ≠ []) :
    t.statAt cur (dot :: cs) = t.statAt cur cs := by
  rw [statAt, statAt, List.getLast?_cons_of_ne_nil h]
  simp only [walk_dot, placeAt_dot t cur h]

structure KeepsDirs (t t' : Tree) : Prop where
  dir : ∀ p, t.node p = some .dir → t'.node p = some .dir
  link : ∀ p g, t.node p = some (.link g) → t.leadsToDir p = true → t'.node p = some (.link g)

theorem KeepsDirs.refl (t : Tree) : t.KeepsDirs t := ⟨fun _ h => h, fun _ _ h _ => h⟩

theorem Within.keepsDirs {t t' : Tree} (h : t.Within t') : t.KeepsDirs t' :=
  ⟨fun p hp => h p _ hp, fun p _ hp _ => h p _ hp⟩

theorem leadsToDir_of_walks {t : Tree} {k : Nat} {p d : Loc} {g : Target} {r : List Str}
    (hp : t.node p = some (.link g)) (hd : t.node p.tail = some .dir) (hk : k ≤ linkLimit)
    (h : Walks t k (g.base p.tail) (g.names ++ r) d) (hdir : t.node d = some .dir) :
    t.leadsToDir p = true := by
  refine leadsToDir_iff.mpr (.inr ⟨g, ?_⟩)
  by_cases hr : r = []
  · subst hr
    rw [List.append_nil] at h
    exact ⟨d, hp, h.mono (.refl t) hk, hdir⟩
  · obtain ⟨e, _, _, he, hedir, _⟩ := h.split hr (t.dir_base hd g)
    exact ⟨e, hp, he.mono (.refl t) hk, hedir⟩

theorem Walks.keeps {t t' : Tree} (ht : t.KeepsDirs t') {k : Nat} {cur : Loc} {cs : List Str}
    {x : Loc} (h : Walks t k cur cs x) (hk : k ≤ linkLimit) (hcur : t.node cur = some .dir)
    (hx : t.node x = some .dir) : Walks t' k cur cs x := by
  induction h with
  | done => exact .done
  | stay _ ih => exact .stay (ih hk hcur hx)
  | up _ ih => exact .up (ih hk (t.dir_tail hcur) hx)
  | down h1 h2 hn _ ih => exact .down h1 h2 (ht.dir _ hn) (ih hk hn hx)
  | follow h1 h2 hn h ih =>
      have hl := leadsToDir_of_walks (p := _ :: _) hn hcur (by omega) h hx
      exact .follow h1 h2 (ht.link _ _ hn hl) (ih (by omega) (t.dir_base hcur _) hx)
  | leaf h1 h2 hn hd hl =>
      rw [hx] at hn
      exact absurd (Option.some.inj hn).symm hd

theorem placeAt_keeps {t t' : Tree} (ht : t.KeepsDirs t') {cur p : Loc} {cs : List Str}
    (hcur : t.node cur = some .dir) (h : t.placeAt cur cs = some p) :
    t'.placeAt cur cs = some p := by
  obtain ⟨ds, n, d, rfl, h1, h2, hw, hd, rfl⟩ := placeAt_iff.mp h
  exact placeAt_iff.mpr ⟨ds, n, d, rfl, h1, h2, hw.keeps ht le_rfl hcur hd, ht.dir d hd, rfl⟩

theorem leadsToDir_keeps {t t' : Tree} (ht : t.KeepsDirs t') {p : Loc} (h : t.leadsToDir p = true) :
    t'.leadsToDir p = true := by
  rcases leadsToDir_iff.mp h with hd | ⟨g, d, hg, hw, hd⟩
  · exact leadsToDir_iff.mpr (.inl (ht.dir p hd))
  · have hp : t.node p.tail = some .dir := by
      cases p with
      | nil => exact t.root
      | cons n e => exact t.parent n e (by simp [hg])
    exact leadsToDir_iff.mpr (.inr ⟨g, d, ht.link p g hg h,
      hw.keeps ht le_rfl (t.dir_base hp g) hd, ht.dir d hd⟩)

theorem KeepsDirs.trans {t u v : Tree} (h : t.KeepsDirs u) (h' : u.KeepsDirs v) : t.KeepsDirs v :=
  ⟨fun p hp => h'.dir p (h.dir p hp),
    fun p g hp hl => h'.link p g (h.link p g hp hl) (leadsToDir_keeps h hl)⟩

theorem keepsDirs_of_updates {t t' : Tree} {S : Loc → Prop} (hS : ∀ q, S q → t.leadsToDir q = false)
    (h : ∀ q, ¬ S q → t'.node q = t.node q) : t.KeepsDirs t' := by
  have hne {q : Loc} (hq : t.leadsToDir q = true) : ¬ S q := by
    intro hs
    rw [hS q hs] at hq
    exact Bool.false_ne_true hq
  refine ⟨fun q hq => ?_, fun q g hq hl => ?_⟩
  · rw [h q (hne (leadsToDir_iff.mpr (.inl hq))), hq]
  · rw [h q (hne hl), hq]

theorem keepsDirs_of_update {t t' : Tree} {p : Loc} (hp : t.leadsToDir p = false)
    (h : ∀ q, q ≠ p → t'.node q = t.node q) : t.KeepsDirs t' :=
  keepsDirs_of_updates (S := (· = p)) (fun _ hq => hq ▸ hp) h

theorem leadsToDir_file {t : Tree} {p : Loc} {e : Bool} {ls : List Str}
    (h : t.node p = some (.file e ls)) :
    t.leadsToDir p = false := by
  rw [← Bool.not_eq_true, leadsToDir_iff]
  rintro (hd | ⟨g, _, hg, _⟩)
  · simp [h] at hd
  · simp [h] at hg

theorem leadsToDir_none {t : Tree} {p : Loc} (h : t.node p = none) : t.leadsToDir p = false := by
  rw [← Bool.not_eq_true, leadsToDir_iff]
  rintro (hd | ⟨g, _, hg, _⟩)
  · simp [h] at hd
  · simp [h] at hg

theorem ne_dir_of_leadsToDir {t : Tree} {p : Loc} (h : t.leadsToDir p = false) :
    t.node p ≠ some .dir := by
  intro hd
  rw [leadsToDir_iff.mpr (.inl hd)] at h
  exact Bool.false_ne_true h.symm

theorem stat_of_place {t : Tree} {cwd p : Loc} {s : Str} (h : t.place cwd s = some p) :
    t.stat cwd s = t.deref p := by
  obtain ⟨ds, n, d, hc, h1, h2, _⟩ := placeAt_iff.mp h
  have hs : s ≠ [] := by
    rintro rfl
    simp [comps] at hc
  rw [stat, if_neg hs, statAt, hc, List.getLast?_concat]
  simp only [h1, h2, or_self, if_false]
  rw [← hc, show t.placeAt (start cwd s) (comps s) = some p from h, Option.bind_some]

theorem deref_of_node {t : Tree} {p : Loc} {x : Node} (h : t.node p = some x)
    (hl : ∀ g, x ≠ .link g) :
    t.deref p = some p := by
  unfold deref
  split
  · simp_all
  · rename_i g hg
    rw [h] at hg
    exact absurd (Option.some.inj hg) (hl g)
  · rfl

theorem deref_link {t : Tree} {p : Loc} {g : Target} (h : t.node p = some (.link g)) :
    t.deref p = walk t linkLimit (g.base p.tail) g.names := by
  simp [deref, h]

theorem deref_none {t : Tree} {p : Loc} (h : t.node p = none) : t.deref p = none := by
  unfold deref
  rw [h]

theorem isDir_eq_leadsToDir {t : Tree} {cwd p : Loc} {s : Str} (h : t.place cwd s = some p) :
    t.isDir cwd s = t.leadsToDir p := by
  rw [isDir, stat_of_place h, leadsToDir]

theorem text_of_place {t : Tree} {cwd p : Loc} {s : Str} (h : t.place cwd s = some p) {e : Bool}
    {ls : List Str} (hn : t.node p = some (.file e ls)) : t.text cwd s = some ls := by
  rw [text, stat_of_place h, deref_of_node hn (by simp), Option.bind_some, hn]

theorem present_of_place {t : Tree} {cwd p : Loc} {s : Str} (h : t.place cwd s = some p) {e : Bool}
    {ls : List Str} (hn : t.node p = some (.file e ls)) : t.present cwd s = true := by
  rw [present, stat_of_place h, deref_of_node hn (by simp), Option.bind_some, hn,
    Option.isSome_some]

theorem present_of_none {t : Tree} {cwd p : Loc} {s : Str} (h : t.place cwd s = some p)
    (hn : t.node p = none) : t.present cwd s = false := by
  rw [present, stat_of_place h, deref_none hn]
  rfl

theorem place_append {t : Tree} {cwd d : Loc} {s n x : Str} (h : t.place cwd s = some (n :: d))
    (hx : '/' ∉ x) (h1 : n ++ x ≠ dot) (h2 : n ++ x ≠ dotdot) :
    t.place cwd (s ++ x) = some ((n ++ x) :: d) := by
  obtain ⟨ds, m, e, hc, hm1, _, hw, hd, he⟩ := placeAt_iff.mp h
  obtain ⟨rfl, rfl⟩ := List.cons.inj he
  have hs : s ≠ [] := by
    rintro rfl
    simp [comps] at hc
  have hl : s.getLast? ≠ some '/' := by
    intro hl
    rw [comps, if_pos hl] at hc
    exact hm1 (List.cons.inj (List.append_inj' hc rfl).2).1.symm
  obtain ⟨a, m, rfl, ha, hm, hms⟩ := exists_dir_name s hs hl
  rw [comps_append_name a m ha hm hms] at hc
  obtain ⟨rfl, hmn⟩ := List.append_inj' hc rfl
  obtain rfl := (List.cons.inj hmn).1
  refine placeAt_iff.mpr ⟨names a, m ++ x, d, ?_, h1, h2, ?_, hd, rfl⟩
  · rw [List.append_assoc, comps_append_name a (m ++ x) ha (by simp [hm]) (by simp [hms, hx])]
  · have hst : start cwd (a ++ m ++ x) = start cwd (a ++ m) := by
      rw [start, start, List.head?_append_of_ne_nil _ hs]
    rw [hst]
    exact hw

theorem place_of_isDir {t : Tree} {cwd : Loc} {s : Str} (hs : NamesFile s)
    (h : t.isDir cwd s = true) :
    ∃ p, t.place cwd s = some p ∧ t.leadsToDir p = true := by
  obtain ⟨hl, n, hn, h1, h2⟩ := hs
  rw [Option.mem_toList] at hn
  have hs0 : s ≠ [] := by
    rintro rfl
    simp at hn
  have hc : comps s = names s := by rw [comps, if_neg hl, List.append_nil]
  cases hp : t.place cwd s with
  | some p => exact ⟨p, rfl, by rwa [isDir_eq_leadsToDir hp] at h⟩
  | none =>
      rw [place, hc] at hp
      rw [isDir, stat, if_neg hs0, statAt, hc, hn] at h
      simp [h1, h2, hp] at h

theorem place_of_append {t : Tree} {cwd q : Loc} {s x : Str} (hs : NamesFile s) (hx : '/' ∉ x)
    (h : t.place cwd (s ++ x) = some q) :
    ∃ n d, q = (n ++ x) :: d ∧ t.place cwd s = some (n :: d) := by
  obtain ⟨hl, n, hn, h1, h2⟩ := hs
  have hne : s ≠ [] := by
    rintro rfl
    simp at hn
  obtain ⟨a, m, rfl, ha, hm, hms⟩ := exists_dir_name s hne hl
  rw [names_append_name a m ha hm hms, List.getLast?_concat, Option.toList_some,
    List.mem_singleton] at hn
  subst hn
  obtain ⟨ds, k, d, hc, _, _, hw, hd, rfl⟩ := placeAt_iff.mp h
  rw [List.append_assoc, comps_append_name a (n ++ x) ha (by simp [hm]) (by simp [hms, hx])] at hc
  obtain ⟨rfl, hk⟩ := List.append_inj' hc rfl
  obtain rfl := (List.cons.inj hk).1
  refine ⟨n, d, rfl, placeAt_iff.mpr ⟨names a, n, d, comps_append_name a n ha hm hms, h1,
    h2, ?_, hd, rfl⟩⟩
  rw [start, List.head?_append_of_ne_nil _ hne] at hw
  exact hw

theorem place_member (t : Tree) {s : Str} (hs : NamesFile s) :
    t.place [] s = t.placeAt [] (names (dot ++ '/' :: s)) := by
  obtain ⟨hl, n, hn, _⟩ := hs
  have hne : names s ≠ [] := by
    intro he
    simp [he] at hn
  rw [place, start_nil, comps, if_neg hl, List.append_nil, names_append_slash]
  exact (placeAt_dot t [] hne).symm

theorem none_below {t : Tree} {p : Loc} (hp : t.node p ≠ some .dir) (m : Str) (r : Loc) :
    t.node (m :: r ++ p) = none := by
  have hne : p ≠ m :: r ++ p := fun h => absurd (congrArg List.length h) (by simp; omega)
  by_contra hs
  exact hp (t.dir_of_suffix (List.suffix_append _ p) hne (Option.isSome_iff_ne_none.mpr hs))

theorem rename_file {t : Tree} {p q : Loc} {e : Bool} {ls : List Str}
    (hp : t.node p = some (.file e ls)) (hq : t.node q = none) (hd : t.node q.tail = some .dir) :
    ∃ t', t.rename p q = some t' ∧
      ∀ x, t'.node x = if x = q then some (.file e ls) else if x = p then none else t.node x := by
  have hp0 : p ≠ [] := by
    rintro rfl
    simp [t.root] at hp
  have hq0 : q ≠ [] := by
    rintro rfl
    simp [t.root] at hq
  have hpq : p ≠ q := by
    rintro rfl
    simp [hp] at hq
  have hsuf : ¬ p <:+ q := by
    intro h
    obtain ⟨m, d, rfl⟩ := List.exists_cons_of_ne_nil hq0
    obtain ⟨r, hr⟩ := (List.suffix_cons_iff.mp h).resolve_left hpq
    rw [List.tail_cons, ← hr] at hd
    cases r with
    | nil => simp [hp] at hd
    | cons k r =>
        rw [none_below (p := p) (by simp [hp])] at hd
        simp at hd
  have hc : p ≠ [] ∧ (t.node p).isSome ∧ q ≠ [] ∧ t.dirAt q.tail = true ∧
    (t.node q).isNone ∧ ¬ p <:+ q :=
    ⟨hp0, by simp [hp], hq0, by simpa using hd, by simp [hq], hsuf⟩
  obtain ⟨t', ht'⟩ : ∃ t', t.rename p q = some t' := ⟨_, by rw [rename, dif_pos hc]⟩
  refine ⟨t', ht', fun x => ?_⟩
  rw [rename_node ht']
  by_cases hx : q <:+ x
  · obtain ⟨r, rfl⟩ := hx
    rw [if_pos (List.suffix_append r q), transfer_append]
    cases r with
    | nil => simpa using hp
    | cons m r =>
        have h1 : m :: r ++ q ≠ q := fun h => absurd (congrArg List.length h) (by simp; omega)
        rw [none_below (by simp [hp]), none_below (by simp [hq]), if_neg h1, ite_self]
  · have hxq : x ≠ q := by
      rintro rfl
      exact hx (List.suffix_refl x)
    rw [if_neg hx, if_neg hxq]
    by_cases hxp : p <:+ x
    · obtain ⟨r, rfl⟩ := hxp
      cases r with
      | nil => simp
      | cons m r => rw [if_pos (List.suffix_append _ p), none_below (by simp [hp]), ite_self]
    · have hne : x ≠ p := by
        rintro rfl
        exact hxp (List.suffix_refl x)
      rw [if_neg hxp, if_neg hne]

theorem mv_file {t : Tree} {cwd p q : Loc} {a b : Str} (hp : t.place cwd a = some p)
    (hq : t.place cwd b = some q) (hpq : p ≠ q) {e : Bool} {ls : List Str}
    (hn : t.node p = some (.file e ls)) (hl : t.leadsToDir q = false) :
    ∃ t', t.mv cwd a b = some t' ∧
      ∀ x, t'.node x = if x = q then some (.file e ls) else if x = p then none else t.node x := by
  have hqd := ne_dir_of_leadsToDir hl
  have hqt : t.node q.tail = some .dir := placeAt_dir hq
  have hdir : t.dirAt p = false := by simp [dirAt, hn]
  have hmv : t.mv cwd a b = t.moveTo p q := by
    rw [mv, isDir_eq_leadsToDir hq, hl]
    simp only [Bool.false_eq_true, if_false]
    rw [hp, hq, Option.bind_some, Option.bind_some]
  have hover (y : Node) (hy : t.node q = some y) :
    ∃ t', ((t.unlink q).bind fun t => t.rename p q) = some t' ∧
      ∀ x, t'.node x = if x = q then some (.file e ls) else if x = p then none else t.node x := by
    obtain ⟨u, hu⟩ := t.unlink_isSome (p := q) (by simp [hy]) hqd
    have hnode := unlink_node hu
    have htail : q.tail ≠ q := by
      intro he
      rw [he] at hqt
      exact hqd hqt
    obtain ⟨t', ht', hx⟩ := rename_file (t := u) (p := p) (q := q) (by rw [hnode, if_neg hpq, hn])
      (by rw [hnode, if_pos rfl]) (by rw [hnode, if_neg htail, hqt])
    refine ⟨t', by rw [hu, Option.bind_some, ht'], fun x => ?_⟩
    rw [hx, hnode]
    by_cases hxq : x = q <;> simp [hxq]
  rw [hmv, moveTo, if_neg hpq]
  cases hy : t.node q with
  | none => exact rename_file hn hy hqt
  | some y =>
      cases y with
      | dir => exact absurd hy hqd
      | file _ _ | archive _ _ | link _ =>
          simp only [hdir, Bool.false_eq_true, if_false]
          exact hover _ hy

end Tree

end Fidelix.Files
