import Fidelix.Files.Beside
import Fidelix.Files.Climb

namespace Fidelix.Files.Tree

open Text

theorem Walks.append {t : Tree} {k : Nat} {cur d x : Loc} {a b : List Str} (h : Walks t k cur a d)
    (hd : t.node d = some .dir) (hb : Walks t 0 d b x) : Walks t k cur (a ++ b) x := by
  induction h with
  | done => exact hb.mono (.refl t) (Nat.zero_le _)
  | stay _ ih => exact .stay (ih hd hb)
  | up _ ih => exact .up (ih hd hb)
  | down h1 h2 hn _ ih => exact .down h1 h2 hn (ih hd hb)
  | follow h1 h2 hn _ ih =>
      have hrest := ih hd hb
      rw [List.append_assoc] at hrest
      exact .follow h1 h2 hn hrest
  | leaf h1 h2 hn hx _ =>
      rw [hd] at hn
      exact absurd (Option.some.inj hn).symm hx

theorem Walks.deeper {t : Tree} {k : Nat} {cur d : Loc} {a b : List Str} (h : Walks t k cur a d)
    (hd : t.node d = some .dir) (hb : ∀ n ∈ b, n ≠ dot ∧ n ≠ dotdot)
    (hdir : t.node (b.reverse ++ d) = some .dir) :
    Walks t k cur (a ++ b) (b.reverse ++ d) := by
  apply h.append hd
  have hw := walks_through (k := 0) (r := []) hb hdir .done
  rwa [List.append_nil] at hw

theorem mkdirs_append (t : Tree) (cur : Loc) (a b : List Str) : t.mkdirs cur (a ++ b) =
    match t.mkdirs cur a with
    | (u, some d) => u.mkdirs d b
    | (u, none) => (u, none) := by
  induction a generalizing t cur with
  | nil => rfl
  | cons n a ih =>
      rw [List.cons_append, mkdirs, mkdirs]
      split
      · exact ih t cur
      · split
        · exact ih t cur.tail
        · split
          · split
            · rfl
            · exact ih _ _
          · split
            · rfl
            · exact ih _ _

theorem mkdirs_down {t : Tree} {d : Loc} {b : List Str} (hb : ∀ n ∈ b, n ≠ dot ∧ n ≠ dotdot)
    (hd : t.node d = some .dir)
    (hreal : ∀ q, d <:+ q → q <:+ b.reverse ++ d → t.node q = none ∨ t.node q = some .dir) :
    ∃ u, t.mkdirs d b = (u, some (b.reverse ++ d)) ∧
      ∀ q, u.node q = if d <:+ q ∧ q <:+ b.reverse ++ d then some .dir else t.node q := by
  induction b generalizing t d with
  | nil =>
      refine ⟨t, rfl, fun q => ?_⟩
      split
      · rename_i hq
        rw [List.reverse_nil, List.nil_append] at hq
        rw [hq.2.eq_of_length (le_antisymm hq.2.length_le hq.1.length_le), hd]
      · rfl
  | cons n b ih =>
      have hn := hb n (by simp)
      have hb' : ∀ m ∈ b, m ≠ dot ∧ m ≠ dotdot := fun m hm => hb m (by simp [hm])
      have he : (n :: b).reverse ++ d = b.reverse ++ (n :: d) := by simp
      have hsuf : n :: d <:+ b.reverse ++ (n :: d) := List.suffix_append _ _
      rw [he] at hreal ⊢
      rw [mkdirs, if_neg hn.1, if_neg hn.2]
      have hbelow {q : Loc} : d <:+ q ∧ q <:+ b.reverse ++ (n :: d) ↔
          q = d ∨ n :: d <:+ q ∧ q <:+ b.reverse ++ (n :: d) := by
        constructor
        · rintro ⟨h1, h2⟩
          rcases List.suffix_or_suffix_of_suffix h2 hsuf with h | h
          · rcases List.suffix_cons_iff.mp h with rfl | h
            · exact .inr ⟨List.suffix_refl _, h2⟩
            · exact .inl (h.eq_of_length (le_antisymm h.length_le h1.length_le))
          · exact .inr ⟨h, h2⟩
        · rintro (rfl | ⟨h1, h2⟩)
          · exact ⟨List.suffix_refl _, (List.suffix_cons n q).trans hsuf⟩
          · exact ⟨(List.suffix_cons n d).trans h1, h2⟩
      have hstep {v : Tree} (hv : ∀ q, v.node q = if q = n :: d then some .dir else t.node q) :
          ∃ u, v.mkdirs (n :: d) b = (u, some (b.reverse ++ (n :: d))) ∧
            ∀ q, u.node q = if d <:+ q ∧ q <:+ b.reverse ++ (n :: d) then some .dir
              else t.node q := by
        have hvreal : ∀ q, n :: d <:+ q → q <:+ b.reverse ++ (n :: d) → v.node q = none ∨
          v.node q = some .dir := by
          intro q h1 h2
          rw [hv]
          split
          · exact .inr rfl
          · exact hreal q ((List.suffix_cons n d).trans h1) h2
        obtain ⟨u, hu, hnode⟩ := ih hb' (by rw [hv, if_pos rfl]) hvreal
        refine ⟨u, hu, fun q => ?_⟩
        rw [hnode, hv]
        by_cases h1 : n :: d <:+ q ∧ q <:+ b.reverse ++ (n :: d)
        · rw [if_pos h1, if_pos (hbelow.mpr (.inr h1))]
        · rw [if_neg h1]
          by_cases h2 : q = d
          · have hne : q ≠ n :: d := fun h => by simpa [h2] using congrArg List.length h
            rw [if_neg hne, if_pos (hbelow.mpr (.inl h2)), h2, hd]
          · rw [if_neg fun h => (hbelow.mp h).elim h2 h1, if_neg]
            rintro rfl
            exact h1 ⟨List.suffix_refl _, hsuf⟩
      rcases hreal (n :: d) (List.suffix_cons n d) hsuf with hnone | hdir
      · obtain ⟨v, hv⟩ := put_isSome .dir hd (by rw [hnone]; simp)
        rw [hnone, hv]
        exact hstep (put_node hv)
      · have hfound : (t.deref (n :: d)).filter t.dirAt = some (n :: d) := by
          rw [deref_of_node hdir (by simp)]
          simp [Option.filter, hdir]
        rw [hdir, hfound]
        refine hstep fun q => ?_
        split
        · rename_i hq
          rw [hq, hdir]
        · rfl

theorem placeAt_deeper {t : Tree} {cur d : Loc} {a b : List Str} {n : Str}
    (h : Walks t linkLimit cur a d) (hd : t.node d = some .dir) (hb : ∀ m ∈ b, m ≠ dot ∧ m ≠ dotdot)
    (hdir : t.node (b.reverse ++ d) = some .dir) (hn : n ≠ dot ∧ n ≠ dotdot) :
    t.placeAt cur (a ++ (b ++ [n])) = some (n :: (b.reverse ++ d)) :=
  placeAt_iff.mpr ⟨a ++ b, n, b.reverse ++ d, (List.append_assoc a b [n]).symm, hn.1, hn.2,
    h.deeper hd hb hdir, hdir, rfl⟩

theorem Walks.meet {t u : Tree} {k j : Nat} {cur x y : Loc} {cs : List Str} (h : Walks t k cur cs x)
    (hc : ∀ q ∈ t.trail k cur cs, ∀ b, u.node q = some b → t.node q = some b)
    (h' : Walks u j cur cs y) :
    x = y ∧ ∀ q ∈ t.trail k cur cs, u.node q = t.node q := by
  induction h generalizing j with
  | @done k cur =>
      cases h'
      exact ⟨rfl, by cases k <;> simp [trail, trailWith]⟩
  | stay _ ih =>
      rw [trail_stay] at hc ⊢
      cases h' with
      | stay h' => exact ih hc h'
      | down h1 | follow h1 | leaf h1 => exact absurd rfl h1
  | up _ ih =>
      rw [trail_up] at hc ⊢
      cases h' with
      | up h' => exact ih hc h'
      | down _ h2 | follow _ h2 | leaf _ h2 => exact absurd rfl h2
  | down h1 h2 hn _ ih =>
      rw [trail_down h1 h2 hn] at hc ⊢
      have hhead := hc _ List.mem_cons_self
      have hrest := fun q hq => hc q (List.mem_cons_of_mem _ hq)
      cases h' with
      | stay => exact absurd rfl h1
      | up => exact absurd rfl h2
      | down _ _ hu h' =>
          obtain ⟨hxy, htrail⟩ := ih hrest h'
          refine ⟨hxy, fun q hq => ?_⟩
          rcases List.mem_cons.mp hq with rfl | hq
          · rw [hu, hn]
          · exact htrail q hq
      | follow _ _ hu _ =>
          have := hhead _ hu
          rw [hn] at this
          cases this
      | leaf _ _ hu hx _ =>
          have := hhead _ hu
          rw [hn] at this
          exact absurd (Option.some.inj this).symm hx
  | @follow k n cur g r x h1 h2 hn _ ih =>
      rw [trail_follow h1 h2 hn] at hc ⊢
      have hhead := hc _ List.mem_cons_self
      have hrest := fun q hq => hc q (List.mem_cons_of_mem _ hq)
      cases h' with
      | stay => exact absurd rfl h1
      | up => exact absurd rfl h2
      | down _ _ hu _ =>
          have := hhead _ hu
          rw [hn] at this
          cases this
      | follow _ _ hu h' =>
          have hg := hhead _ hu
          rw [hn] at hg
          obtain rfl := Node.link.inj (Option.some.inj hg)
          obtain ⟨hxy, htrail⟩ := ih hrest h'
          refine ⟨hxy, fun q hq => ?_⟩
          rcases List.mem_cons.mp hq with rfl | hq
          · rw [hu, hn]
          · exact htrail q hq
      | leaf _ _ hu _ hl =>
          have := hhead _ hu
          rw [hn] at this
          exact absurd (Option.some.inj this).symm (hl g)
  | @leaf k n cur y h1 h2 hn hx hl =>
      have hmem : n :: cur ∈ t.trail k cur [n] := mem_trail_leaf t k [] h1 h2
      have htrail : t.trail k cur [n] = [n :: cur] := by
        cases y with
        | dir => exact absurd rfl hx
        | link g => exact absurd rfl (hl g)
        | file _ _ | archive _ _ => cases k <;> simp [trail, trailWith, h1, h2, hn]
      have hhead := hc _ hmem
      rw [htrail]
      cases h' with
      | stay => exact absurd rfl h1
      | up => exact absurd rfl h2
      | down _ _ hu _ =>
          have := hhead _ hu
          rw [hn] at this
          exact absurd (Option.some.inj this) hx
      | follow _ _ hu _ =>
          have := hhead _ hu
          rw [hn] at this
          exact absurd (Option.some.inj this) (hl _)
      | leaf _ _ hu _ _ =>
          refine ⟨rfl, fun q hq => ?_⟩
          rw [List.mem_singleton.mp hq, hu, hhead _ hu]

theorem Walks.trail_isSome {t : Tree} {k : Nat} {cur x : Loc} {cs : List Str}
    (h : Walks t k cur cs x) :
    ∀ q ∈ t.trail k cur cs, (t.node q).isSome := by
  induction h with
  | @done k cur => cases k <;> simp [trail, trailWith]
  | stay _ ih =>
      rw [trail_stay]
      exact ih
  | up _ ih =>
      rw [trail_up]
      exact ih
  | down h1 h2 hn _ ih =>
      rw [trail_down h1 h2 hn]
      intro q hq
      rcases List.mem_cons.mp hq with rfl | hq
      · rw [hn]
        rfl
      · exact ih q hq
  | follow h1 h2 hn _ ih =>
      rw [trail_follow h1 h2 hn]
      intro q hq
      rcases List.mem_cons.mp hq with rfl | hq
      · rw [hn]
        rfl
      · exact ih q hq
  | @leaf k n cur y h1 h2 hn hx hl =>
      intro q hq
      cases y with
      | dir => exact absurd rfl hx
      | link g => exact absurd rfl (hl g)
      | file _ _ | archive _ _ =>
          have hq' : q = n :: cur := by cases k <;> simpa [trail, trailWith, h1, h2, hn] using hq
          rw [hq', hn]
          rfl

theorem statAt_of_walks {t : Tree} {cur r : Loc} {cs : List Str} (hcur : t.node cur = some .dir)
    (h : Walks t linkLimit cur cs r) (hr : t.node r = some .dir) : t.statAt cur cs = some r := by
  rw [statAt]
  cases hl : cs.getLast? with
  | none =>
      obtain rfl := List.getLast?_eq_none_iff.mp hl
      cases h
      rfl
  | some n =>
      simp only
      split
      · exact h.eval
      · rename_i hn
        rw [not_or] at hn
        obtain ⟨ds, rfl⟩ := List.getLast?_eq_some_iff.mp hl
        obtain ⟨d, j, hj, hw, hd, hlast⟩ := h.split (by simp) hcur
        have hplace : t.placeAt cur (ds ++ [n]) = some (n :: d) :=
          placeAt_iff.mpr ⟨ds, n, d, rfl, hn.1, hn.2, hw, hd, rfl⟩
        rw [hplace, Option.bind_some]
        cases hlast with
        | stay => exact absurd rfl hn.1
        | up => exact absurd rfl hn.2
        | down _ _ hnode hrest =>
            cases hrest
            exact deref_of_node hnode (by simp)
        | follow _ _ hnode hrest =>
            rw [List.append_nil] at hrest
            rw [deref_link hnode]
            exact (hrest.mono (.refl t) (by omega : _ ≤ linkLimit)).eval
        | leaf _ _ hnode hx _ =>
            rw [hr] at hnode
            exact absurd (Option.some.inj hnode).symm hx

theorem stat_of_walks {t : Tree} {cwd r : Loc} {s : Str} (hs : s ≠ [])
    (hcwd : t.node cwd = some .dir) (h : Walks t linkLimit (start cwd s) (names s) r)
    (hr : t.node r = some .dir) : t.stat cwd s = some r := by
  rw [stat, if_neg hs]
  apply statAt_of_walks (start_dir hcwd s) _ hr
  rw [comps]
  split
  · exact h.append hr (.stay .done)
  · rwa [List.append_nil]

theorem deref_meet {t u : Tree} {p x y : Loc} (hx : t.deref p = some x) (hy : u.deref p = some y)
    (hc : ∀ q ∈ t.looksFrom p, ∀ b, u.node q = some b → t.node q = some b) :
    x = y ∧ ∀ q ∈ t.looksFrom p, u.node q = t.node q := by
  cases hu : u.node p with
  | none =>
      rw [deref_none hu] at hy
      cases hy
  | some b =>
      have ht : t.node p = some b := hc p (by rw [looksFrom]; exact List.mem_cons_self) b hu
      by_cases hl : ∃ g, b = .link g
      · obtain ⟨g, rfl⟩ := hl
        rw [deref_link ht] at hx
        rw [deref_link hu] at hy
        have hfrom : t.looksFrom p = p :: t.trail linkLimit (g.base p.tail) g.names := by
          rw [looksFrom, ht]
        rw [hfrom] at hc ⊢
        obtain ⟨hxy, htrail⟩ :=
          (walk_iff.mp hx).meet (fun q hq => hc q (List.mem_cons_of_mem _ hq)) (walk_iff.mp hy)
        refine ⟨hxy, fun q hq => ?_⟩
        rcases List.mem_cons.mp hq with rfl | hq
        · rw [hu, ht]
        · exact htrail q hq
      · have hb : ∀ g, b ≠ .link g := fun g hg => hl ⟨g, hg⟩
        rw [deref_of_node ht hb] at hx
        rw [deref_of_node hu hb] at hy
        refine ⟨(Option.some.inj hx).symm.trans (Option.some.inj hy), fun q hq => ?_⟩
        rw [looksFrom_bare fun g hg => hb g (Option.some.inj (ht.symm.trans hg)),
          List.mem_singleton] at hq
        rw [hq, hu, ht]

theorem Walks.end_clear {t : Tree} {P : Loc → Prop} (hP : ∀ a b, P a → a <:+ b → P b) (h0 : ¬ P [])
    {k : Nat} {cur x : Loc} {cs : List Str} (h : Walks t k cur cs x) (hcur : ¬ P cur)
    (ht : ∀ q ∈ t.trail k cur cs, ¬ P q) :
    ¬ P x := by
  induction h with
  | done => exact hcur
  | stay _ ih =>
      rw [trail_stay] at ht
      exact ih hcur ht
  | up _ ih =>
      rw [trail_up] at ht
      exact ih (fun hp => hcur (hP _ _ hp (List.tail_suffix _))) ht
  | down h1 h2 hn _ ih =>
      rw [trail_down h1 h2 hn] at ht
      exact ih (ht _ List.mem_cons_self) fun q hq => ht q (List.mem_cons_of_mem _ hq)
  | @follow k n cur g r x h1 h2 hn _ ih =>
      rw [trail_follow h1 h2 hn] at ht
      refine ih ?_ fun q hq => ht q (List.mem_cons_of_mem _ hq)
      rw [Target.base]
      split
      · exact h0
      · exact fun hp => hcur (hP _ _ hp (List.drop_suffix _ _))
  | leaf h1 h2 hn _ _ => exact ht _ (mem_trail_leaf t _ _ h1 h2)

theorem Walks.solid {t : Tree} {k : Nat} {cur x : Loc} {cs : List Str} (h : Walks t k cur cs x)
    (hcs : ∀ n ∈ cs, n ≠ dot ∧ n ≠ dotdot)
    (hd : ∀ e, e <:+ cs.reverse ++ cur → e ≠ cur → cur <:+ e → t.node e = none ∨
      t.node e = some .dir) :
    x = cs.reverse ++ cur := by
  induction h with
  | done => rfl
  | stay _ _ => exact absurd rfl (hcs dot (by simp)).1
  | up _ _ => exact absurd rfl (hcs dotdot (by simp)).2
  | @down k n cur r x _ _ _ _ ih =>
      rw [List.reverse_cons, List.append_assoc, List.singleton_append]
      apply ih fun m hm => hcs m (by simp [hm])
      intro e he hne hcur
      refine hd e (by simpa using he) ?_ ((List.suffix_cons n cur).trans hcur)
      rintro rfl
      exact absurd hcur.length_le (by simp)
  | @follow k n cur g r x _ _ hn _ _ =>
      rcases hd (n :: cur) (by simp) (by simp) (List.suffix_cons n cur) with h1 | h1
      · rw [hn] at h1
        cases h1
      · rw [hn] at h1
        cases h1
  | leaf => rfl

theorem isDir_solid {t : Tree} {s : Str} (hn : names s ≠ [])
    (hp : ∀ n ∈ names s, n ≠ dot ∧ n ≠ dotdot)
    (hd : ∀ e, e ≠ [] → e <:+ (names s).reverse → t.node e = none ∨ t.node e = some .dir)
    (h : t.isDir [] s = true) : t.node (names s).reverse = some .dir := by
  obtain ⟨p, hplace, hsome⟩ := placeAt_of_isDir hn hp h
  obtain ⟨ds, n, d, hds, _, _, hw, _, rfl⟩ := placeAt_iff.mp hplace
  have hrev : (names s).reverse = n :: ds.reverse := by rw [hds, List.reverse_append]; rfl
  have hd' := hw.solid (fun m hm => hp m (by simp [hds, hm])) fun e he hne _ =>
    hd e hne (hrev ▸ (by simpa using he : e <:+ ds.reverse).trans (List.suffix_cons n _))
  rw [List.append_nil] at hd'
  rw [hd', ← hrev] at hsome
  refine (hd _ (by rw [hrev]; simp) (List.suffix_refl _)).resolve_left fun hnone => ?_
  rw [hnone] at hsome
  cases hsome

theorem Walks.chain {t : Tree} {k : Nat} {cur x : Loc} {b : List Str}
    (hb : ∀ n ∈ b, n ≠ dot ∧ n ≠ dotdot)
    (hreal : ∀ q, cur <:+ q → q <:+ b.reverse ++ cur → q ≠ cur → t.node q = none ∨
      t.node q = some .dir)
    (h : Walks t k cur b x) : x = b.reverse ++ cur := by
  induction b generalizing cur with
  | nil =>
      cases h
      rfl
  | cons n b ih =>
      have hn := hb n (by simp)
      have he : (n :: b).reverse ++ cur = b.reverse ++ (n :: cur) := by simp
      rw [he] at hreal ⊢
      have hne : n :: cur ≠ cur := fun h => by simpa using congrArg List.length h
      have hnext := hreal (n :: cur) (List.suffix_cons n cur) (List.suffix_append _ _) hne
      cases h with
      | stay => exact absurd rfl hn.1
      | up => exact absurd rfl hn.2
      | down _ _ _ h =>
          refine ih (fun m hm => hb m (by simp [hm])) (fun q h1 h2 _ => ?_) h
          refine hreal q ((List.suffix_cons n cur).trans h1) h2 ?_
          rintro rfl
          have := h1.length_le
          simp at this
      | follow _ _ hnode _ =>
          rw [hnode] at hnext
          simp at hnext
      | leaf _ _ hnode hx _ =>
          rw [hnode] at hnext
          simp [hx] at hnext

def allLooks (t : Tree) (cwd : Loc) (s : Str) : List Loc := t.leads cwd s ++ t.looks cwd s

section

variable {t u : Tree} {cwd x y : Loc} {s n : Str} (hn : (comps s).getLast? = some n) (h1 : n ≠ dot)
  (h2 : n ≠ dotdot)
include hn h1 h2

theorem stat_eq_bind (t : Tree) (cwd : Loc) : t.stat cwd s = (t.place cwd s).bind t.deref := by
  have hs : s ≠ [] := by
    rintro rfl
    cases hn
  rw [stat, if_neg hs, statAt, hn]
  simp only [h1, h2, or_self, if_false]
  rfl

theorem place_iff_dir : t.place cwd s = some y ↔
    ∃ d, y = n :: d ∧ Walks t linkLimit (start cwd s) (comps s).dropLast d ∧
    t.node d = some .dir := by
  obtain ⟨ds, hds⟩ := List.getLast?_eq_some_iff.mp hn
  rw [place, hds, List.dropLast_concat, placeAt_iff]
  constructor
  · rintro ⟨ds', n', d, he, _, _, hw, hd, rfl⟩
    obtain ⟨rfl, hnn⟩ := List.append_inj' he rfl
    obtain rfl := (List.cons.inj hnn).1
    exact ⟨d, rfl, hw, hd⟩
  · rintro ⟨d, rfl, hw, hd⟩
    exact ⟨ds, n, d, rfl, h1, h2, hw, hd, rfl⟩

theorem stat_meet (hx : t.stat cwd s = some x) (hy : u.stat cwd s = some y)
    (hc : ∀ q ∈ t.allLooks cwd s, ∀ b, u.node q = some b → t.node q = some b) :
    x = y ∧ ∀ q ∈ t.allLooks cwd s, u.node q = t.node q := by
  rw [stat_eq_bind hn h1 h2, Option.bind_eq_some_iff] at hx hy
  obtain ⟨p, hp, hx⟩ := hx
  obtain ⟨p', hp', hy⟩ := hy
  obtain ⟨d, rfl, hw, hd⟩ := (place_iff_dir hn h1 h2).mp hp
  obtain ⟨d', rfl, hw', _⟩ := (place_iff_dir hn h1 h2).mp hp'
  obtain ⟨rfl, hleads⟩ := hw.meet (fun q hq => hc q (List.mem_append_left _ hq)) hw'
  have hlooks : ∀ q ∈ t.looksFrom (n :: d), ∀ b, u.node q = some b → t.node q = some b := by
    intro q hq
    apply hc q
    rw [allLooks, looks_of_place hp]
    exact List.mem_append_right _ hq
  have hfrom := deref_meet hx hy hlooks
  refine ⟨hfrom.1, fun q hq => ?_⟩
  rw [allLooks, looks_of_place hp] at hq
  rcases List.mem_append.mp hq with hq | hq
  · exact hleads q hq
  · exact hfrom.2 q hq

theorem stat_kept (hx : t.stat cwd s = some x) (hc : ∀ q ∈ t.allLooks cwd s, u.node q = t.node q) :
    u.stat cwd s = some x := by
  rw [stat_eq_bind hn h1 h2, Option.bind_eq_some_iff] at hx ⊢
  obtain ⟨p, hp, hx⟩ := hx
  have hlooks : ∀ q ∈ t.looksFrom p, u.node q = t.node q := by
    intro q hq
    apply hc q
    rw [allLooks, looks_of_place hp]
    exact List.mem_append_right _ hq
  obtain ⟨d, rfl, hw, hd⟩ := (place_iff_dir hn h1 h2).mp hp
  have hsome : (u.node (n :: d)).isSome := by
    rw [hlooks _ List.mem_cons_self]
    by_contra hnone
    rw [Option.not_isSome_iff_eq_none] at hnone
    rw [deref_none hnone] at hx
    cases hx
  refine ⟨n :: d, (place_iff_dir hn h1 h2).mpr ⟨d, rfl, ?_, u.parent n d hsome⟩, ?_⟩
  · exact hw.of_trail fun q hq => hc q (List.mem_append_left _ hq)
  · rw [deref_congr hlooks]
    exact hx

theorem allLooks_kept (hx : t.stat cwd s = some x)
    (hc : ∀ q ∈ t.allLooks cwd s, u.node q = t.node q) :
    u.allLooks cwd s = t.allLooks cwd s := by
  have hy := stat_kept hn h1 h2 hx hc
  rw [stat_eq_bind hn h1 h2, Option.bind_eq_some_iff] at hx hy
  obtain ⟨p, hp, _⟩ := hx
  obtain ⟨p', hp', _⟩ := hy
  obtain ⟨d, rfl, hw, _⟩ := (place_iff_dir hn h1 h2).mp hp
  obtain ⟨d', rfl, hw', _⟩ := (place_iff_dir hn h1 h2).mp hp'
  have hleads : ∀ q ∈ t.trail linkLimit (start cwd s) (comps s).dropLast, u.node q = t.node q :=
    fun q hq => hc q (List.mem_append_left _ hq)
  have hd : d' = d := Option.some.inj (hw'.eval.symm.trans (hw.of_trail hleads).eval)
  subst hd
  rw [allLooks, looks_of_place hp] at hc
  rw [allLooks, allLooks, looks_of_place hp, looks_of_place hp', leads, leads, hw.trail_eq hleads,
    looksFrom_congr fun q hq => hc q (List.mem_append_right _ hq)]

theorem allLooks_isSome (hx : t.stat cwd s = some x) :
    ∀ q ∈ t.allLooks cwd s, (t.node q).isSome := by
  rw [stat_eq_bind hn h1 h2, Option.bind_eq_some_iff] at hx
  obtain ⟨p, hp, hx⟩ := hx
  obtain ⟨d, rfl, hw, hd⟩ := (place_iff_dir hn h1 h2).mp hp
  intro q hq
  rw [allLooks, looks_of_place hp] at hq
  rcases List.mem_append.mp hq with hq | hq
  · exact hw.trail_isSome q hq
  · rw [deref] at hx
    rw [looksFrom] at hq
    rcases List.mem_cons.mp hq with rfl | hq
    · by_contra hnone
      rw [Option.not_isSome_iff_eq_none] at hnone
      simp [hnone] at hx
    · split at hx
      · cases hx
      · rename_i g hg
        rw [hg] at hq
        exact (walk_iff.mp hx).trail_isSome q hq
      · rename_i y hl hy
        rw [hy] at hq
        cases y with
        | link g => exact absurd rfl (hl g)
        | dir | file _ _ | archive _ _ => cases hq

theorem stat_clear {P : Loc → Prop} (hP : ∀ a b, P a → a <:+ b → P b) (h0 : ¬ P [])
    (hx : t.stat cwd s = some x) (hc : ∀ q ∈ t.allLooks cwd s, ¬ P q) : ¬ P x := by
  rw [stat_eq_bind hn h1 h2, Option.bind_eq_some_iff] at hx
  obtain ⟨p, hp, hx⟩ := hx
  have hlooks : ∀ q ∈ t.looksFrom p, ¬ P q := by
    intro q hq
    apply hc q
    rw [allLooks, looks_of_place hp]
    exact List.mem_append_right _ hq
  rw [looksFrom] at hlooks
  have hhead := hlooks p List.mem_cons_self
  rw [deref] at hx
  split at hx
  · cases hx
  · rename_i g hg
    rw [hg] at hlooks
    refine (walk_iff.mp hx).end_clear hP h0 ?_ fun q hq => hlooks q (List.mem_cons_of_mem _ hq)
    rw [Target.base]
    split
    · exact h0
    · exact fun hp' => hhead (hP _ _ hp' ((List.drop_suffix _ _).trans (List.tail_suffix _)))
  · rw [← Option.some.inj hx]
    exact hhead

end

end Fidelix.Files.Tree
