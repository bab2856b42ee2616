import Fidelix.Files.Trail

namespace Fidelix.Files.Tree

open Text

def Bare (x : Option Node) : Prop := x ≠ some .dir ∧ ∀ g, x ≠ some (.link g)

/-- Of the places `P`, some that hold neither a directory nor a link may hold something else. -/
structure Beside (P : Loc → Prop) (t u : Tree) : Prop where
  off : ∀ q, ¬ P q → u.node q = t.node q
  bare : ∀ q, P q → u.node q = t.node q ∨ (Bare (t.node q) ∧ Bare (u.node q))

namespace Beside

variable {P : Loc → Prop} {t u v : Tree}

theorem refl (P : Loc → Prop) (t : Tree) : Beside P t t := ⟨fun _ _ => rfl, fun _ _ => .inl rfl⟩

theorem symm (h : Beside P t u) : Beside P u t :=
  ⟨fun q hq => (h.off q hq).symm, fun q hq => (h.bare q hq).imp Eq.symm And.symm⟩

theorem trans (h : Beside P t u) (h' : Beside P u v) : Beside P t v := by
  refine ⟨fun q hq => (h'.off q hq).trans (h.off q hq), fun q hq => ?_⟩
  rcases h.bare q hq with h1 | ⟨h1, h2⟩
  · rw [← h1]
    exact h'.bare q hq
  · rcases h'.bare q hq with h3 | ⟨_, h3⟩
    · exact .inr ⟨h1, h3 ▸ h2⟩
    · exact .inr ⟨h1, h3⟩

theorem dir (h : Beside P t u) {q : Loc} (hq : t.node q = some .dir) : u.node q = some .dir := by
  by_cases hp : P q
  · rcases h.bare q hp with he | ⟨hb, _⟩
    · rw [he, hq]
    · exact absurd hq hb.1
  · rw [h.off q hp, hq]

theorem link (h : Beside P t u) {q : Loc} {g : Target} (hq : t.node q = some (.link g)) :
    u.node q = some (.link g) := by
  by_cases hp : P q
  · rcases h.bare q hp with he | ⟨hb, _⟩
    · rw [he, hq]
    · exact absurd hq (hb.2 g)
  · rw [h.off q hp, hq]

theorem walks (h : Beside P t u) {k : Nat} {cur : Loc} {cs : List Str} {x : Loc}
    (hw : Walks t k cur cs x) (hx : u.node x = t.node x) : Walks u k cur cs x := by
  induction hw with
  | done => exact .done
  | stay _ ih => exact .stay (ih hx)
  | up _ ih => exact .up (ih hx)
  | down h1 h2 hn _ ih => exact .down h1 h2 (h.dir hn) (ih hx)
  | follow h1 h2 hn _ ih => exact .follow h1 h2 (h.link hn) (ih hx)
  | leaf h1 h2 hn hd hl => exact .leaf h1 h2 (hx.trans hn) hd hl

theorem placeAt_some (h : Beside P t u) {cur p : Loc} {cs : List Str}
    (hp : t.placeAt cur cs = some p) :
    u.placeAt cur cs = some p := by
  obtain ⟨ds, n, d, hc, h1, h2, hw, hd, he⟩ := placeAt_iff.mp hp
  exact placeAt_iff.mpr ⟨ds, n, d, hc, h1, h2, h.walks hw ((h.dir hd).trans hd.symm), h.dir hd, he⟩

theorem placeAt_eq (h : Beside P t u) (cur : Loc) (cs : List Str) :
    u.placeAt cur cs = t.placeAt cur cs :=
  Option.ext fun _ => ⟨h.symm.placeAt_some, h.placeAt_some⟩

theorem place_eq (h : Beside P t u) (cwd : Loc) (s : Str) : u.place cwd s = t.place cwd s :=
  h.placeAt_eq _ _

theorem dirAt_eq (h : Beside P t u) (q : Loc) : u.dirAt q = t.dirAt q := by
  rw [Bool.eq_iff_iff, dirAt_iff, dirAt_iff]
  exact ⟨h.symm.dir, h.dir⟩

end Beside

theorem walkWith_congr {t u : Tree} {f f' : Loc → List Str → Option Loc}
    {looks looks' : Loc → List Str → List Loc}
    (hf : ∀ cur cs, (∀ q ∈ looks cur cs, u.node q = t.node q) → f' cur cs = f cur cs ∧
      looks' cur cs = looks cur cs)
    {cur : Loc} {cs : List Str} (h : ∀ q ∈ trailWith t looks cur cs, u.node q = t.node q) :
    walkWith u f' cur cs = walkWith t f cur cs ∧
    trailWith u looks' cur cs = trailWith t looks cur cs := by
  induction cs generalizing cur with
  | nil => exact ⟨rfl, rfl⟩
  | cons n r ih =>
      rw [trailWith] at h
      rw [walkWith, walkWith, trailWith, trailWith]
      by_cases h1 : n = dot
      · simp only [h1, if_true] at h ⊢
        exact ih h
      · by_cases h2 : n = dotdot
        · simp only [h2, if_true] at h ⊢
          exact ih h
        · simp only [h1, h2, if_false] at h ⊢
          have hrest := fun q hq => h q (List.mem_cons_of_mem _ hq)
          rw [h _ List.mem_cons_self]
          cases hn : t.node (n :: cur) with
          | none => exact ⟨rfl, rfl⟩
          | some y =>
              rw [hn] at hrest
              cases y with
              | dir =>
                  obtain ⟨hw, ht⟩ := ih hrest
                  exact ⟨hw, congrArg _ ht⟩
              | link g =>
                  obtain ⟨hw, ht⟩ := hf _ _ hrest
                  exact ⟨hw, congrArg _ ht⟩
              | file e ls => exact ⟨rfl, rfl⟩
              | archive ms i => exact ⟨rfl, rfl⟩

theorem walk_congr {t u : Tree} {k : Nat} {cur : Loc} {cs : List Str}
    (h : ∀ q ∈ t.trail k cur cs, u.node q = t.node q) :
    u.walk k cur cs = t.walk k cur cs ∧ u.trail k cur cs = t.trail k cur cs := by
  induction k generalizing cur cs with
  | zero => exact walkWith_congr (fun _ _ _ => ⟨rfl, rfl⟩) h
  | succ k ih => exact walkWith_congr (fun _ _ => ih) h

def looksFrom (t : Tree) (p : Loc) : List Loc :=
  p :: match t.node p with
    | some (.link g) => t.trail linkLimit (g.base p.tail) g.names
    | _ => []

def looks (t : Tree) (cwd : Loc) (s : Str) : List Loc := ((t.place cwd s).map t.looksFrom).getD []

def lead (t : Tree) (cwd : Loc) (s : Str) : Option Node := (t.stat cwd s).bind t.node

theorem looks_of_place {t : Tree} {cwd p : Loc} {s : Str} (hp : t.place cwd s = some p) :
    t.looks cwd s = t.looksFrom p := by
  rw [looks, hp, Option.map_some, Option.getD_some]

theorem looks_of_none {t : Tree} {cwd : Loc} {s : Str} (hp : t.place cwd s = none) :
    t.looks cwd s = [] := by
  rw [looks, hp, Option.map_none, Option.getD_none]

theorem looksFrom_congr {t u : Tree} {p : Loc} (h : ∀ q ∈ t.looksFrom p, u.node q = t.node q) :
    u.looksFrom p = t.looksFrom p := by
  rw [looksFrom] at h
  rw [looksFrom, looksFrom, h p List.mem_cons_self]
  apply congrArg (List.cons p)
  split
  · rename_i g hg
    rw [hg] at h
    exact (walk_congr fun q hq => h q (List.mem_cons_of_mem _ hq)).2
  · rfl

theorem looksFrom_bare {t : Tree} {p : Loc} (h : ∀ g, t.node p ≠ some (.link g)) :
    t.looksFrom p = [p] := by
  rw [looksFrom]
  split
  · rename_i g hg
    exact absurd hg (h g)
  · rfl

theorem Beside.looks_eq {P : Loc → Prop} {t u : Tree} (h : Beside P t u) {cwd : Loc} {s : Str}
    (hs : ∀ q ∈ t.looks cwd s, ¬ P q) : u.looks cwd s = t.looks cwd s := by
  cases hp : t.place cwd s with
  | none => rw [looks_of_none hp, looks_of_none ((h.place_eq cwd s).trans hp)]
  | some p =>
      rw [looks_of_place hp] at hs ⊢
      rw [looks_of_place ((h.place_eq cwd s).trans hp)]
      exact looksFrom_congr fun q hq => h.off q (hs q hq)

theorem deref_congr {t u : Tree} {p : Loc} (h : ∀ q ∈ t.looksFrom p, u.node q = t.node q) :
    u.deref p = t.deref p := by
  rw [looksFrom] at h
  rw [deref, deref, h p List.mem_cons_self]
  split
  · rfl
  · rename_i g hg
    rw [hg] at h
    exact (walk_congr fun q hq => h q (List.mem_cons_of_mem _ hq)).1
  · rfl

theorem walks_dots {t : Tree} {k : Nat} {cur : Loc} {cs : List Str} {x : Loc} {n : Str}
    (hn : cs.getLast? = some n) (hd : n = dot ∨ n = dotdot) (hcur : t.node cur = some .dir)
    (h : Walks t k cur cs x) :
    t.node x = some .dir := by
  obtain ⟨ds, rfl⟩ : ∃ ds, cs = ds ++ [n] := ⟨_, (List.dropLast_append_getLast? n hn).symm⟩
  obtain ⟨d, j, _, _, hdir, hw⟩ := h.split (by simp) hcur
  cases hw with
  | stay hw =>
      cases hw
      exact hdir
  | up hw =>
      cases hw
      exact t.dir_tail hdir
  | down h1 h2 => exact absurd hd (not_or.mpr ⟨h1, h2⟩)
  | follow h1 h2 => exact absurd hd (not_or.mpr ⟨h1, h2⟩)
  | leaf h1 h2 => exact absurd hd (not_or.mpr ⟨h1, h2⟩)

theorem Beside.walk_dots {P : Loc → Prop} {t u : Tree} (h : Beside P t u) {k : Nat} {cur x : Loc}
    {cs : List Str} {n : Str} (hn : cs.getLast? = some n) (hd : n = dot ∨ n = dotdot)
    (hcur : t.node cur = some .dir) (hw : t.walk k cur cs = some x) : u.walk k cur cs = some x := by
  have hdir := walks_dots hn hd hcur (walk_iff.mp hw)
  exact walk_iff.mpr (h.walks (walk_iff.mp hw) ((h.dir hdir).trans hdir.symm))

theorem start_dir {t : Tree} {cwd : Loc} (hcwd : t.node cwd = some .dir) (s : Str) :
    t.node (start cwd s) = some .dir := by
  rw [start]
  split
  · exact t.root
  · exact hcwd

theorem Beside.stat_eq {P : Loc → Prop} {t u : Tree} (h : Beside P t u) {cwd : Loc}
    (hcwd : t.node cwd = some .dir) {s : Str} (hs : ∀ q ∈ t.looks cwd s, ¬ P q) :
    u.stat cwd s = t.stat cwd s := by
  have hcur := start_dir hcwd s
  rw [stat, stat]
  split
  · rfl
  · rw [statAt, statAt]
    split
    · rfl
    · rename_i n hn
      split
      · rename_i hd
        exact Option.ext fun x => ⟨h.symm.walk_dots hn hd (h.dir hcur), h.walk_dots hn hd hcur⟩
      · rw [h.placeAt_eq]
        cases hp : t.placeAt (start cwd s) (comps s) with
        | none => rw [Option.bind_none, Option.bind_none]
        | some p =>
            rw [looks_of_place hp] at hs
            rw [Option.bind_some, Option.bind_some]
            exact deref_congr fun q hq => h.off q (hs q hq)

theorem Walks.end_looked {t : Tree} {k : Nat} {cur : Loc} {cs : List Str} {x : Loc}
    (h : Walks t k cur cs x) (hcur : t.node cur = some .dir) :
    t.node x = some .dir ∨ x ∈ t.trail k cur cs := by
  induction h with
  | done => exact .inl hcur
  | stay _ ih =>
      rw [trail_stay]
      exact ih hcur
  | up _ ih =>
      rw [trail_up]
      exact ih (t.dir_tail hcur)
  | down h1 h2 hn _ ih =>
      rw [trail_down h1 h2 hn]
      exact (ih hn).imp_right (List.mem_cons_of_mem _)
  | follow h1 h2 hn _ ih =>
      rw [trail_follow h1 h2 hn]
      exact (ih (t.dir_base hcur _)).imp_right (List.mem_cons_of_mem _)
  | leaf h1 h2 hn hd hl => exact .inr (mem_trail_leaf t _ _ h1 h2)

theorem deref_looked {t : Tree} {p x : Loc} (hp : t.node p.tail = some .dir)
    (h : t.deref p = some x) :
    t.node x = some .dir ∨ x ∈ t.looksFrom p := by
  rw [deref] at h
  rw [looksFrom]
  split at h
  · cases h
  · rename_i g hg
    rw [hg]
    exact ((walk_iff.mp h).end_looked (t.dir_base hp g)).imp_right (List.mem_cons_of_mem _)
  · rw [← Option.some.inj h]
    exact .inr List.mem_cons_self

theorem stat_looked {t : Tree} {cwd x : Loc} (hcwd : t.node cwd = some .dir) {s : Str}
    (h : t.stat cwd s = some x) :
    t.node x = some .dir ∨ x ∈ t.looks cwd s := by
  have hcur := start_dir hcwd s
  rw [stat] at h
  split at h
  · cases h
  · rw [statAt] at h
    split at h
    · rw [← Option.some.inj h]
      exact .inl hcur
    · rename_i n hn
      split at h
      · exact .inl (walks_dots hn ‹_› hcur (walk_iff.mp h))
      · obtain ⟨p, hp, hx⟩ := Option.bind_eq_some_iff.mp h
        rw [looks_of_place hp]
        exact deref_looked (placeAt_dir hp) hx

theorem Beside.lead_eq {P : Loc → Prop} {t u : Tree} (h : Beside P t u) {cwd : Loc}
    (hcwd : t.node cwd = some .dir) {s : Str} (hs : ∀ q ∈ t.looks cwd s, ¬ P q) :
    u.lead cwd s = t.lead cwd s := by
  rw [lead, lead, h.stat_eq hcwd hs]
  cases hx : t.stat cwd s with
  | none => rfl
  | some x =>
      rw [Option.bind_some, Option.bind_some]
      rcases stat_looked hcwd hx with hd | hm
      · rw [hd, h.dir hd]
      · exact h.off x (hs x hm)

theorem lead_bare {t : Tree} {cwd p : Loc} {s : Str} (hp : t.place cwd s = some p)
    (hl : ∀ g, t.node p ≠ some (.link g)) :
    t.lead cwd s = t.node p := by
  rw [lead, stat_of_place hp]
  cases hn : t.node p with
  | none => rw [deref_none hn]; rfl
  | some x =>
      rw [deref_of_node hn fun g hg => hl g (by rw [hn, hg]), Option.bind_some, hn]

theorem looksFrom_link {t : Tree} {p : Loc} {g : Target} (h : t.node p = some (.link g)) :
    t.looksFrom p = p :: t.trail linkLimit (g.base p.tail) g.names := by
  rw [looksFrom, h]

theorem leadsToDir_left_iff {t u : Tree} (h : u.Within t) {p : Loc} (hp : (u.node p).isSome) :
    u.leadsToDir p = true ↔ t.leadsToDir p = true ∧ ∀ q ∈ t.looksFrom p, (u.node q).isSome := by
  have hnode := h.eq_of_isSome hp
  rw [leadsToDir_iff, leadsToDir_iff, hnode]
  constructor
  · rintro (hd | ⟨g, d, hg, hw, hd⟩)
    · rw [looksFrom_bare fun g hg => by rw [hd] at hg; cases hg]
      exact ⟨.inl hd, List.forall_mem_singleton.mpr hp⟩
    · have hpres := hw.present
      have htrail := hw.trail_eq fun q hq => (h.eq_of_isSome (hpres q hq)).symm
      refine ⟨.inr ⟨g, d, hg, hw.mono h le_rfl, h _ _ hd⟩, ?_⟩
      rw [looksFrom_link hg, htrail]
      exact List.forall_mem_cons.mpr ⟨hp, hpres⟩
  · rintro ⟨hd | ⟨g, d, hg, hw, hd⟩, hl⟩
    · exact .inl hd
    · rw [looksFrom_link hg] at hl
      have hpres := (List.forall_mem_cons.mp hl).2
      have hu := hw.of_trail fun q hq => h.eq_of_isSome (hpres q hq)
      have htrail := hw.trail_eq fun q hq => h.eq_of_isSome (hpres q hq)
      refine .inr ⟨g, d, hg, hu, ?_⟩
      obtain ⟨n, e, rfl⟩ := List.exists_cons_of_ne_nil fun h0 : p = [] => by
        rw [h0, t.root] at hg
        cases hg
      rcases hu.end_looked (u.dir_base (u.parent n e hp) g) with hud | hud
      · exact hud
      · rw [h.eq_of_isSome (hpres d (htrail ▸ hud)), hd]
end Fidelix.Files.Tree
