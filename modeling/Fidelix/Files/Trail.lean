import Fidelix.Files.Frame

namespace Fidelix.Files.Tree

open Text

def trailWith (t : Tree) (follow : Loc → List Str → List Loc) : Loc → List Str → List Loc
  | _, [] => []
  | cur, n :: r =>
      if n = dot then trailWith t follow cur r
      else if n = dotdot then trailWith t follow cur.tail r
      else (n :: cur) :: match t.node (n :: cur) with
        | some .dir => trailWith t follow (n :: cur) r
        | some (.link g) => follow (g.base cur) (g.names ++ r)
        | _ => []

def trail (t : Tree) : Nat → Loc → List Str → List Loc
  | 0 => trailWith t fun _ _ => []
  | k + 1 => trailWith t (trail t k)

theorem trail_stay (t : Tree) (k : Nat) (cur : Loc) (r : List Str) :
    t.trail k cur (dot :: r) = t.trail k cur r := by
  cases k <;> simp [trail, trailWith]

theorem trail_up (t : Tree) (k : Nat) (cur : Loc) (r : List Str) :
    t.trail k cur (dotdot :: r) = t.trail k cur.tail r := by
  cases k <;> simp [trail, trailWith, dot, dotdot]

theorem trail_down {t : Tree} {k : Nat} {n : Str} {cur : Loc} {r : List Str} (h1 : n ≠ dot)
    (h2 : n ≠ dotdot) (hn : t.node (n :: cur) = some .dir) :
    t.trail k cur (n :: r) = (n :: cur) :: t.trail k (n :: cur) r := by
  cases k <;> simp [trail, trailWith, h1, h2, hn]

theorem trail_follow {t : Tree} {k : Nat} {n : Str} {cur : Loc} {g : Target} {r : List Str}
    (h1 : n ≠ dot) (h2 : n ≠ dotdot) (hn : t.node (n :: cur) = some (.link g)) :
    t.trail (k + 1) cur (n :: r) = (n :: cur) :: t.trail k (g.base cur) (g.names ++ r) := by
  simp [trail, trailWith, h1, h2, hn]

theorem mem_trail_leaf (t : Tree) (k : Nat) {n : Str} {cur : Loc} (r : List Str) (h1 : n ≠ dot)
    (h2 : n ≠ dotdot) :
    n :: cur ∈ t.trail k cur (n :: r) := by
  cases k <;> simp [trail, trailWith, h1, h2]

theorem Walks.of_trail {t t' : Tree} {k : Nat} {cur : Loc} {cs : List Str} {x : Loc}
    (h : Walks t k cur cs x) (ht : ∀ q ∈ t.trail k cur cs, t'.node q = t.node q) :
    Walks t' k cur cs x := by
  induction h with
  | done => exact .done
  | stay _ ih => exact .stay (ih fun q hq => ht q (by rwa [trail_stay]))
  | up _ ih => exact .up (ih fun q hq => ht q (by rwa [trail_up]))
  | down h1 h2 hn _ ih =>
      rw [trail_down h1 h2 hn] at ht
      exact .down h1 h2 ((ht _ (by simp)).trans hn) (ih fun q hq => ht q (by simp [hq]))
  | follow h1 h2 hn _ ih =>
      rw [trail_follow h1 h2 hn] at ht
      exact .follow h1 h2 ((ht _ (by simp)).trans hn) (ih fun q hq => ht q (by simp [hq]))
  | leaf h1 h2 hn hd hl =>
      exact .leaf h1 h2 ((ht _ (mem_trail_leaf t _ _ h1 h2)).trans hn) hd hl

theorem Walks.trail_eq {t t' : Tree} {k : Nat} {cur : Loc} {cs : List Str} {x : Loc}
    (h : Walks t k cur cs x) (ht : ∀ q ∈ t.trail k cur cs, t'.node q = t.node q) :
    t'.trail k cur cs = t.trail k cur cs := by
  induction h with
  | done => rename_i k _; cases k <;> rfl
  | stay _ ih => rw [trail_stay, trail_stay, ih fun q hq => ht q (by rwa [trail_stay])]
  | up _ ih => rw [trail_up, trail_up, ih fun q hq => ht q (by rwa [trail_up])]
  | down h1 h2 hn _ ih =>
      rw [trail_down h1 h2 hn] at ht
      rw [trail_down h1 h2 hn, trail_down h1 h2 ((ht _ (by simp)).trans hn),
        ih fun q hq => ht q (by simp [hq])]
  | follow h1 h2 hn _ ih =>
      rw [trail_follow h1 h2 hn] at ht
      rw [trail_follow h1 h2 hn, trail_follow h1 h2 ((ht _ (by simp)).trans hn),
        ih fun q hq => ht q (by simp [hq])]
  | leaf h1 h2 hn hd hl =>
      rename_i k n cur y
      have he := (ht _ (mem_trail_leaf t k [] h1 h2)).trans hn
      cases y with
      | dir => exact absurd rfl hd
      | link g => exact absurd rfl (hl g)
      | file _ _ | archive _ _ => cases k <;> simp [trail, trailWith, h1, h2, hn, he]

theorem Walks.trail_dirs {t : Tree} {k : Nat} {cur : Loc} {cs : List Str} {x : Loc}
    (h : Walks t k cur cs x) (hk : k ≤ linkLimit) (hcur : t.node cur = some .dir)
    (hx : t.node x = some .dir) :
    ∀ q ∈ t.trail k cur cs, t.leadsToDir q = true := by
  induction h with
  | done => rename_i k _; cases k <;> simp [trail, trailWith]
  | stay _ ih => rw [trail_stay]; exact ih hk hcur hx
  | up _ ih => rw [trail_up]; exact ih hk (t.dir_tail hcur) hx
  | down h1 h2 hn _ ih =>
      rw [trail_down h1 h2 hn]
      intro q hq
      rcases List.mem_cons.mp hq with rfl | hq
      · exact leadsToDir_iff.mpr (.inl hn)
      · exact ih hk hn hx q hq
  | follow h1 h2 hn h ih =>
      rw [trail_follow h1 h2 hn]
      intro q hq
      rcases List.mem_cons.mp hq with rfl | hq
      · exact leadsToDir_of_walks hn hcur (by omega) h hx
      · exact ih (by omega) (t.dir_base hcur _) hx q hq
  | leaf h1 h2 hn hd hl =>
      rw [hx] at hn
      exact absurd (Option.some.inj hn).symm hd

theorem Walks.dir_nonempty {t : Tree} {k : Nat} {cur : Loc} {cs : List Str} {x : Loc}
    (h : Walks t k cur cs x) (hup : dotdot ∉ cs) (hx : ∃ m, (t.node (m :: x)).isSome) :
    ∃ m, (t.node (m :: cur)).isSome := by
  induction h with
  | done => exact hx
  | stay _ ih => exact ih (fun h => hup (List.mem_cons_of_mem _ h)) hx
  | up _ ih => exact absurd List.mem_cons_self hup
  | down h1 h2 hn _ ih => exact ⟨_, by rw [hn]; rfl⟩
  | follow h1 h2 hn _ ih => exact ⟨_, by rw [hn]; rfl⟩
  | leaf h1 h2 hn hd hl => exact ⟨_, by rw [hn]; rfl⟩

theorem Walks.trail_nonempty {t : Tree} {k : Nat} {cur : Loc} {cs : List Str} {x : Loc}
    (h : Walks t k cur cs x) (hup : dotdot ∉ cs) (hx : ∃ m, (t.node (m :: x)).isSome) :
    ∀ q ∈ t.trail k cur cs, t.node q = some .dir → ∃ m, (t.node (m :: q)).isSome := by
  induction h with
  | done => rename_i k _; cases k <;> simp [trail, trailWith]
  | stay _ ih => rw [trail_stay]; exact ih (fun h => hup (List.mem_cons_of_mem _ h)) hx
  | up _ ih => exact absurd List.mem_cons_self hup
  | down h1 h2 hn h ih =>
      rw [trail_down h1 h2 hn]
      have hup' := fun h => hup (List.mem_cons_of_mem _ h)
      intro q hq hd
      rcases List.mem_cons.mp hq with rfl | hq
      · exact h.dir_nonempty hup' hx
      · exact ih hup' hx q hq hd
  | @follow _ _ _ g _ _ h1 h2 hn h ih =>
      rw [trail_follow h1 h2 hn]
      have hup' : dotdot ∉ g.names ++ _ := fun h => (List.mem_append.mp h).elim g.plain
        fun h => hup (List.mem_cons_of_mem _ h)
      intro q hq hd
      rcases List.mem_cons.mp hq with rfl | hq
      · rw [hn] at hd
        simp at hd
      · exact ih hup' hx q hq hd
  | leaf h1 h2 hn hd hl =>
      obtain ⟨m, hm⟩ := hx
      have hdir := t.parent m _ hm
      rw [hn] at hdir
      exact absurd (Option.some.inj hdir) hd

theorem Walks.present {t : Tree} {k : Nat} {cur : Loc} {cs : List Str} {x : Loc}
    (h : Walks t k cur cs x) :
    ∀ q ∈ t.trail k cur cs, (t.node q).isSome := by
  induction h with
  | done =>
      rename_i k _
      cases k <;> simp [trail, trailWith]
  | stay _ ih => rwa [trail_stay]
  | up _ ih => rwa [trail_up]
  | down h1 h2 hn _ ih =>
      rw [trail_down h1 h2 hn]
      exact List.forall_mem_cons.mpr ⟨by rw [hn]; rfl, ih⟩
  | follow h1 h2 hn _ ih =>
      rw [trail_follow h1 h2 hn]
      exact List.forall_mem_cons.mpr ⟨by rw [hn]; rfl, ih⟩
  | @leaf k n cur y h1 h2 hn hd hl =>
      have htrail : t.trail k cur [n] = [n :: cur] := by
        cases y with
        | dir => exact absurd rfl hd
        | link g => exact absurd rfl (hl g)
        | file _ _ | archive _ _ => cases k <;> simp [trail, trailWith, h1, h2, hn]
      rw [htrail]
      exact List.forall_mem_cons.mpr ⟨by rw [hn]; rfl, by simp⟩

def leads (t : Tree) (cwd : Loc) (s : Str) : List Loc :=
  t.trail linkLimit (start cwd s) (comps s).dropLast

structure Stands (t : Tree) (s : Str) (p : Loc) (x : Node) : Prop where
  place : t.place [] s = some p
  node : t.node p = some x
  file : x ≠ .dir

theorem place_iff_walks {t : Tree} {s : Str} {p : Loc} : t.place [] s = some p ↔
    ∃ n d, (comps s).getLast? = some n ∧ n ≠ dot ∧ n ≠ dotdot ∧
      Walks t linkLimit [] (comps s).dropLast d ∧ t.node d = some .dir ∧ p = n :: d := by
  rw [Tree.place, start_nil, placeAt_iff]
  constructor
  · rintro ⟨ds, n, d, hc, h1, h2, hw, hd, rfl⟩
    exact ⟨n, d, by
      rw [hc, List.getLast?_concat], h1, h2, by rwa [hc, List.dropLast_concat], hd, rfl⟩
  · rintro ⟨n, d, hl, h1, h2, hw, hd, rfl⟩
    obtain ⟨ds, hc⟩ := List.getLast?_eq_some_iff.mp hl
    rw [hc, List.dropLast_concat] at hw
    exact ⟨ds, n, d, hc, h1, h2, hw, hd, rfl⟩

variable {t t' : Tree} {s : Str} {p : Loc} {x : Node}

theorem Stands.of_leads (h : Stands t s p x) (hl : ∀ q ∈ t.leads [] s, t'.node q = t.node q)
    (hp : t'.node p = some x) : Stands t' s p x ∧ t'.leads [] s = t.leads [] s := by
  obtain ⟨n, d, hn, h1, h2, hw, hd, rfl⟩ := place_iff_walks.mp h.place
  rw [leads, start_nil] at hl
  refine ⟨⟨place_iff_walks.mpr ⟨n, d, hn, h1, h2, hw.of_trail hl,
    t'.parent n d (by rw [hp]; rfl), rfl⟩,
    hp, h.file⟩, ?_⟩
  rw [leads, leads, start_nil]
  exact hw.trail_eq hl

theorem Stands.leads_dirs (h : Stands t s p x) : ∀ q ∈ t.leads [] s, t.leadsToDir q = true := by
  obtain ⟨n, d, _, _, _, hw, hd, _⟩ := place_iff_walks.mp h.place
  rw [leads, start_nil]
  exact hw.trail_dirs le_rfl t.root hd

theorem Stands.leads_nonempty (h : Stands t s p x) (hs : dotdot ∉ names s) :
    ∀ q ∈ t.leads [] s, t.node q = some .dir → ∃ m, (t.node (m :: q)).isSome := by
  obtain ⟨n, d, _, _, _, hw, hd, rfl⟩ := place_iff_walks.mp h.place
  have hup : dotdot ∉ (comps s).dropLast := by
    intro hm
    have hm' := List.dropLast_subset _ hm
    rw [comps] at hm'
    rcases List.mem_append.mp hm' with hm' | hm'
    · exact hs hm'
    · split at hm'
      · simp [dot, dotdot] at hm'
      · simp at hm'
  rw [leads, start_nil]
  exact hw.trail_nonempty hup ⟨n, by rw [h.node]; rfl⟩

theorem Stands.keeps (h : Stands t s p x) (ht : t.KeepsDirs t') (hp : t'.node p = some x) :
    Stands t' s p x ∧ t'.leads [] s = t.leads [] s := by
  refine h.of_leads (fun q hq => ?_) hp
  rcases leadsToDir_iff.mp (h.leads_dirs q hq) with hd | ⟨g, _, hg, _⟩
  · rw [hd, ht.dir q hd]
  · rw [hg, ht.link q g hg (h.leads_dirs q hq)]

theorem Stands.rmdir (h : Stands t s p x) (hs : dotdot ∉ names s) {e : Loc}
    (he : t.rmdir e = some t') :
    Stands t' s p x ∧ t'.leads [] s = t.leads [] s := by
  obtain ⟨_, hdir, hempty⟩ := rmdir_pre he
  refine h.of_leads (fun q hq => ?_) ?_
  · rw [rmdir_node he, if_neg]
    rintro rfl
    obtain ⟨m, hm⟩ := h.leads_nonempty hs q hq hdir
    rw [hempty m] at hm
    simp at hm
  · rw [rmdir_node he, if_neg, h.node]
    rintro rfl
    exact h.file (Option.some.inj (h.node.symm.trans hdir))

theorem Stands.rename (h : Stands t s p x) {e d : Loc} (he : t.rename e d = some t')
    (hp : ¬ e <:+ p) (hl : ∀ q ∈ t.leads [] s, ¬ e <:+ q) : Stands t' s p x := by
  have hnode {q : Loc} (hq : (t.node q).isSome) (hout : ¬ e <:+ q) : t'.node q = t.node q := by
    rw [rename_node he, if_neg, if_neg hout]
    intro hsuf
    have hd := isSome_of_suffix hsuf hq
    rw [(rename_pre he).2.2.2.2.1] at hd
    simp at hd
  refine (h.of_leads (fun q hq => hnode ?_ (hl q hq)) ?_).1
  · rcases leadsToDir_iff.mp (h.leads_dirs q hq) with hd | ⟨g, _, hg, _⟩
    · rw [hd]
      rfl
    · rw [hg]
      rfl
  · rw [hnode (by rw [h.node]; rfl) hp, h.node]

theorem place_within (ht : t.Within t') {s : Str} {p : Loc} (h : t.place [] s = some p) :
    t'.place [] s = some p := by
  obtain ⟨n, d, hn, h1, h2, hw, hd, rfl⟩ := place_iff_walks.mp h
  exact place_iff_walks.mpr ⟨n, d, hn, h1, h2, hw.mono ht le_rfl, ht _ _ hd, rfl⟩

theorem Within.eq_of_isSome {t u : Tree} (h : u.Within t) {q : Loc} (hq : (u.node q).isSome) :
    u.node q = t.node q := by
  obtain ⟨x, hx⟩ := Option.isSome_iff_exists.mp hq
  rw [hx, h _ _ hx]

theorem place_left_iff {t u : Tree} (h : u.Within t) {s : Str} {p : Loc} (hp : (u.node p).isSome) :
    u.place [] s = some p ↔ t.place [] s = some p ∧ ∀ q ∈ t.leads [] s, (u.node q).isSome := by
  constructor
  · intro hu
    refine ⟨place_within h hu, ?_⟩
    obtain ⟨n, d, _, _, _, hw, _, _⟩ := place_iff_walks.mp hu
    have hpres := hw.present
    have htrail := hw.trail_eq fun q hq => (h.eq_of_isSome (hpres q hq)).symm
    rw [leads, start_nil, htrail]
    exact hpres
  · rintro ⟨ht, hl⟩
    obtain ⟨n, d, hn, h1, h2, hw, hd, rfl⟩ := place_iff_walks.mp ht
    rw [leads, start_nil] at hl
    exact place_iff_walks.mpr
      ⟨n, d, hn, h1, h2, hw.of_trail fun q hq => h.eq_of_isSome (hl q hq), u.parent n d hp, rfl⟩

end Fidelix.Files.Tree
