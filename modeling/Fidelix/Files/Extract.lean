import Fidelix.Files.Frame

namespace Fidelix.Files.Tree

open Text

def Spreads (t t' : Tree) : Prop :=
  ∀ q, t'.node q = t.node q ∨ t.node q = none ∧ t'.node q = some .dir

theorem Spreads.refl (t : Tree) : t.Spreads t := fun _ => .inl rfl

theorem Spreads.trans {t u v : Tree} (h : t.Spreads u) (h' : u.Spreads v) : t.Spreads v := by
  intro q
  rcases h q with h1 | ⟨h1, h2⟩
  · rcases h' q with h3 | ⟨h3, h4⟩
    · exact .inl (h3.trans h1)
    · exact .inr ⟨h1 ▸ h3, h4⟩
  · rcases h' q with h3 | ⟨h3, h4⟩
    · exact .inr ⟨h1, h3.trans h2⟩
    · exact .inr ⟨h1, h4⟩

theorem Spreads.within {t t' : Tree} (h : t.Spreads t') : t.Within t' := by
  intro q x hq
  rcases h q with h1 | ⟨h1, _⟩
  · rw [h1, hq]
  · rw [h1] at hq
    simp at hq

theorem Spreads.new {t t' : Tree} (h : t.Spreads t') {q : Loc} {x : Node} (hq : t'.node q = some x)
    (hx : x ≠ .dir) : t.node q = some x := by
  rcases h q with h1 | ⟨_, h2⟩
  · rw [← h1, hq]
  · rw [h2] at hq
    exact absurd (Option.some.inj hq).symm hx

theorem put_dir_spreads {t t' : Tree} {p : Loc} (hp : t.node p = none)
    (h : t.put p .dir = some t') :
    t.Spreads t' := by
  intro q
  rw [put_node h]
  by_cases hq : q = p
  · exact .inr ⟨hq ▸ hp, if_pos hq⟩
  · exact .inl (if_neg hq)

theorem mkdirs_spreads (t : Tree) (cur : Loc) (cs : List Str) : t.Spreads (t.mkdirs cur cs).1 := by
  induction cs generalizing t cur with
  | nil => exact .refl t
  | cons n r ih =>
      rw [mkdirs]
      split
      · exact ih t cur
      · split
        · exact ih t cur.tail
        · split
          · rename_i hn
            split
            · exact .refl t
            · rename_i u hu
              exact (put_dir_spreads (Option.isNone_iff_eq_none.mp hn) hu).trans (ih u (n :: cur))
          · split
            · exact .refl t
            · exact ih t _

theorem mkdirs_of_walks {t : Tree} {k : Nat} {cur d : Loc} {cs : List Str} (h : Walks t k cur cs d)
    (hk : k ≤ linkLimit) (hcur : t.node cur = some .dir) (hd : t.node d = some .dir) :
    t.mkdirs cur cs = (t, some d) := by
  induction cs generalizing k cur with
  | nil => cases h; rfl
  | cons n r ih =>
      rw [mkdirs]
      cases h with
      | stay h => rw [if_pos rfl]; exact ih h hk hcur
      | up h => rw [if_neg (by decide), if_pos rfl]; exact ih h hk (t.dir_tail hcur)
      | down h1 h2 hn h =>
          have he : (t.deref (n :: cur)).filter t.dirAt = some (n :: cur) := by
            rw [deref_of_node hn (by simp)]
            simp [Option.filter, hn]
          rw [if_neg h1, if_neg h2, if_neg (by simp [hn]), he]
          exact ih h hk hn
      | @follow k _ _ g _ _ h1 h2 hn h =>
          obtain ⟨e, j, hj, hw, hedir, hr⟩ : ∃ e j, j ≤ k ∧ Walks t k (g.base cur) g.names e ∧
              t.node e = some .dir ∧ Walks t j e r d := by
            by_cases hr : r = []
            · subst hr
              rw [List.append_nil] at h
              exact ⟨d, k, le_rfl, h, hd, .done⟩
            · exact h.split hr (t.dir_base hcur g)
          have he : (t.deref (n :: cur)).filter t.dirAt = some e := by
            rw [deref_link hn, List.tail_cons, (hw.mono (.refl t) (by omega : k ≤ linkLimit)).eval]
            simp [Option.filter, hedir]
          rw [if_neg h1, if_neg h2, if_neg (by simp [hn]), he]
          exact ih hr (by omega) hedir
      | leaf h1 h2 hn hdir hl =>
          rw [hn] at hd
          exact absurd (Option.some.inj hd) hdir

def memberPlace (t : Tree) (r : Loc) (name : Str) : Tree × Option Loc :=
  match (names name).getLast? with
  | none => (t, none)
  | some n => match t.mkdirs r (names name).dropLast with
    | (t, none) => (t, none)
    | (t, some _) => (t, if n = dot ∨ n = dotdot then none else t.placeAt r (names name))

theorem memberPlace_spreads (t : Tree) (r : Loc) (name : Str) :
    t.Spreads (t.memberPlace r name).1 := by
  rw [memberPlace]
  split
  · exact .refl t
  · have h := t.mkdirs_spreads r (names name).dropLast
    split
    · rename_i he; rw [he] at h; exact h
    · rename_i he; rw [he] at h; exact h

theorem memberPlace_placeAt {t : Tree} {r p : Loc} {name : Str}
    (h : (t.memberPlace r name).2 = some p) :
    (t.memberPlace r name).1.placeAt r (names name) = some p := by
  rw [memberPlace] at h ⊢
  cases hl : (names name).getLast? with
  | none => simp [hl] at h
  | some n =>
      rw [hl] at h
      rcases hm : t.mkdirs r (names name).dropLast with ⟨u, _ | d⟩
      · simp [hm] at h
      · simp only [hm] at h ⊢
        split at h
        · simp at h
        · exact h

theorem extractOne_no_place {t : Tree} {r : Loc} {m : Str × Node}
    (h : (t.memberPlace r m.1).2 = none) :
    (t.extractOne r m).1 = (t.memberPlace r m.1).1 := by
  rw [extractOne]
  rw [memberPlace] at h ⊢
  cases hl : (names m.1).getLast? with
  | none => rfl
  | some n =>
      rw [hl] at h
      rcases hm : t.mkdirs r (names m.1).dropLast with ⟨u, _ | d⟩
      · rfl
      · simp only [hm] at h ⊢
        by_cases hn : n = dot ∨ n = dotdot
        · rw [if_pos hn]
        · rw [if_neg hn] at h ⊢
          rw [h]
          rfl

theorem extractOne_at {t : Tree} {r p : Loc} {m : Str × Node}
    (h : (t.memberPlace r m.1).2 = some p) :
    t.extractOne r m = match (t.memberPlace r m.1).1.placeMember p m.2 with
      | none => ((t.memberPlace r m.1).1, false)
      | some u => (u, true) := by
  rw [extractOne]
  rw [memberPlace] at h ⊢
  cases hl : (names m.1).getLast? with
  | none => simp [hl] at h
  | some n =>
      rw [hl] at h
      rcases hm : t.mkdirs r (names m.1).dropLast with ⟨u, _ | d⟩
      · simp [hm] at h
      · simp only [hm] at h ⊢
        by_cases hn : n = dot ∨ n = dotdot
        · simp [hn] at h
        · rw [if_neg hn] at h ⊢
          cases hp : u.placeMember p m.2 with
          | none => simp [h, hp]
          | some v => simp [h, hp]

theorem extractOne_cases (t : Tree) (r : Loc) (m : Str × Node) :
    (t.extractOne r m).1 = (t.memberPlace r m.1).1 ∨ ∃ p, (t.memberPlace r m.1).2 = some p ∧
      (t.memberPlace r m.1).1.placeMember p m.2 = some (t.extractOne r m).1 := by
  cases hp : (t.memberPlace r m.1).2 with
  | none => exact .inl (extractOne_no_place hp)
  | some p =>
      rw [extractOne_at hp]
      cases hu : (t.memberPlace r m.1).1.placeMember p m.2 with
      | none => exact .inl rfl
      | some u => exact .inr ⟨p, rfl, hu⟩

theorem placeMember_cases {t t' : Tree} {p : Loc} {x : Node} (h : t.placeMember p x = some t') :
    x = .dir ∧ t.leadsToDir p = true ∧ t' = t ∨ ∀ q, t'.node q = if q = p then some x
      else t.node q := by
  have hput (y : Node) (hy : (if t.dirAt p then (t.rmdir p).bind fun t =>
    t.put p y else t.put p y) = some t')
      (q : Loc) : t'.node q = if q = p then some y else t.node q := by
    split at hy
    · obtain ⟨u, hu, hy⟩ := Option.bind_eq_some_iff.mp hy
      rw [put_node hy]
      by_cases hq : q = p
      · rw [if_pos hq, if_pos hq]
      · rw [if_neg hq, if_neg hq, rmdir_node hu, if_neg hq]
    · exact put_node hy q
  cases x with
  | dir =>
      rw [placeMember] at h
      split at h
      · rename_i hl
        exact .inl ⟨rfl, hl, (Option.some.inj h).symm⟩
      · exact .inr (put_node h)
  | file _ _ | archive _ _ | link _ => exact .inr (hput _ h)

/-- A member that replaces nothing that is or leads to a directory, and that is no
directory in the place of something else. -/
def gentle (t : Tree) (r : Loc) (m : Str × Node) : Bool :=
  match t.memberPlace r m.1, m.2 with
  | (_, none), _ => true
  | (t, some p), .dir => t.leadsToDir p || (t.node p).isNone
  | (t, some p), _ => !t.leadsToDir p

theorem gentle_dir {t : Tree} {r p : Loc} {m : Str × Node} (h : t.gentle r m = true)
    (hx : m.2 = .dir) (hp : (t.memberPlace r m.1).2 = some p) :
    (t.memberPlace r m.1).1.leadsToDir p = true ∨ (t.memberPlace r m.1).1.node p = none := by
  rw [gentle] at h
  rcases hm : t.memberPlace r m.1 with ⟨u, o⟩
  rw [hm] at hp
  obtain rfl : o = some p := hp
  simpa [hm, hx] using h

theorem gentle_file {t : Tree} {r p : Loc} {m : Str × Node} (h : t.gentle r m = true)
    (hx : m.2 ≠ .dir) (hp : (t.memberPlace r m.1).2 = some p) :
    (t.memberPlace r m.1).1.leadsToDir p = false := by
  rw [gentle] at h
  rcases hm : t.memberPlace r m.1 with ⟨u, o⟩
  rw [hm] at hp
  obtain rfl : o = some p := hp
  cases hn : m.2 with
  | dir => exact absurd hn hx
  | file _ _ | archive _ _ | link _ => simpa [hm, hn] using h

theorem extractOne_frame (t : Tree) (r : Loc) (m : Str × Node) :
    t.Spreads (t.extractOne r m).1 ∨ ∃ p u, (t.memberPlace r m.1) = (u, some p) ∧
      t.Spreads u ∧ ∀ q, (t.extractOne r m).1.node q = if q = p then some m.2 else u.node q := by
  have hs := t.memberPlace_spreads r m.1
  rcases t.extractOne_cases r m with h | ⟨p, hp, h⟩
  · rw [h]
    exact .inl hs
  · rcases placeMember_cases h with ⟨_, _, h⟩ | h
    · rw [h]
      exact .inl hs
    · exact .inr ⟨p, _, Prod.ext rfl hp, hs, h⟩

structure Grows (t t' : Tree) : Prop extends KeepsDirs t t' where
  file : ∀ p x, t.node p = some x → x ≠ .dir → ∃ y, t'.node p = some y ∧ y ≠ .dir

theorem Grows.refl (t : Tree) : t.Grows t := ⟨.refl t, fun _ x h hx => ⟨x, h, hx⟩⟩

theorem Grows.trans {t u v : Tree} (h : t.Grows u) (h' : u.Grows v) : t.Grows v := by
  refine ⟨h.toKeepsDirs.trans h'.toKeepsDirs, fun p x hp hx => ?_⟩
  obtain ⟨y, hy, hyd⟩ := h.file p x hp hx
  exact h'.file p y hy hyd

theorem Within.grows {t t' : Tree} (h : t.Within t') : t.Grows t' :=
  ⟨h.keepsDirs, fun p x hp hx => ⟨x, h p x hp, hx⟩⟩

theorem update_grows {t t' : Tree} {p : Loc} {x : Node}
    (h : ∀ q, t'.node q = if q = p then some x else t.node q) (hx : t.leadsToDir p = false)
    (hd : x = .dir → t.node p = none) : t.Grows t' := by
  refine ⟨keepsDirs_of_update hx fun q hq => by rw [h, if_neg hq], fun q y hq hy => ?_⟩
  rw [h]
  by_cases he : q = p
  · refine ⟨x, if_pos he, fun hxd => ?_⟩
    rw [he, hd hxd] at hq
    simp at hq
  · exact ⟨y, by rw [if_neg he, hq], hy⟩

theorem put_grows {t t' : Tree} {p : Loc} {x : Node} (h : t.put p x = some t')
    (hl : t.leadsToDir p = false) (hx : x ≠ .dir) : t.Grows t' :=
  update_grows (put_node h) hl fun he => absurd he hx

theorem placeMember_grows {t t' : Tree} {r p : Loc} {m : Str × Node} (h : t.gentle r m = true)
    (hp : (t.memberPlace r m.1).2 = some p)
    (ht : (t.memberPlace r m.1).1.placeMember p m.2 = some t') :
    (t.memberPlace r m.1).1.Grows t' := by
  rcases placeMember_cases ht with ⟨_, _, rfl⟩ | hnode
  · exact .refl _
  · by_cases hx : m.2 = .dir
    · rcases gentle_dir h hx hp with hl | hn
      · rw [hx, placeMember, if_pos hl] at ht
        rw [← Option.some.inj ht]
        exact .refl _
      · exact update_grows hnode (leadsToDir_none hn) fun _ => hn
    · exact update_grows hnode (gentle_file h hx hp) fun he => absurd he hx

theorem extractOne_grows {t : Tree} {r : Loc} {m : Str × Node} (h : t.gentle r m = true) :
    t.Grows (t.extractOne r m).1 := by
  have hs := (t.memberPlace_spreads r m.1).within.grows
  rcases t.extractOne_cases r m with he | ⟨p, hp, he⟩
  · rw [he]
    exact hs
  · exact hs.trans (placeMember_grows h hp he)

def gentleAll (t : Tree) (r : Loc) : List (Str × Node) → Bool
  | [] => true
  | m :: ms => t.gentle r m && gentleAll (t.extractOne r m).1 r ms

def landings (t : Tree) (r : Loc) : List (Str × Node) → List Loc
  | [] => []
  | m :: ms => (t.memberPlace r m.1).2.toList ++ landings (t.extractOne r m).1 r ms

theorem mem_landings_cons {t u : Tree} {r p : Loc} {m : Str × Node} {ms : List (Str × Node)}
    (hp : t.memberPlace r m.1 = (u, some p)) : p ∈ t.landings r (m :: ms) := by
  simp [landings, hp]

theorem extract_cons_true {t u : Tree} {r : Loc} {m : Str × Node} {ms : List (Str × Node)}
    (h : t.extract r (m :: ms) = (u, true)) :
    (t.extractOne r m).2 = true ∧ (t.extractOne r m).1.extract r ms = (u, true) := by
  rw [extract] at h
  rcases he : t.extractOne r m with ⟨v, b⟩
  rw [he] at h
  cases b with
  | false => simp at h
  | true => exact ⟨rfl, h⟩

theorem extract_cons (t : Tree) (r : Loc) (m : Str × Node) (ms : List (Str × Node)) :
    (t.extract r (m :: ms)).1 = (t.extractOne r m).1 ∨
      (t.extract r (m :: ms)).1 = ((t.extractOne r m).1.extract r ms).1 := by
  rw [extract]
  rcases t.extractOne r m with ⟨v, b⟩
  cases b with
  | false => exact .inl rfl
  | true => exact .inr rfl

theorem extract_grows {t : Tree} {r : Loc} {ms : List (Str × Node)} (h : t.gentleAll r ms = true) :
    t.Grows (t.extract r ms).1 := by
  induction ms generalizing t with
  | nil => exact .refl t
  | cons m ms ih =>
      rw [gentleAll, Bool.and_eq_true] at h
      rcases t.extract_cons r m ms with he | he
      · rw [he]
        exact extractOne_grows h.1
      · rw [he]
        exact (extractOne_grows h.1).trans (ih h.2)

theorem extract_unlanded {t : Tree} {r q : Loc} {x : Node} {ms : List (Str × Node)}
    (hq : t.node q = some x) (h : q ∉ t.landings r ms) : (t.extract r ms).1.node q = some x := by
  induction ms generalizing t with
  | nil => exact hq
  | cons m ms ih =>
      have h2 : q ∉ (t.extractOne r m).1.landings r ms := fun hm => h (List.mem_append_right _ hm)
      have h1 : (t.extractOne r m).1.node q = some x := by
        rcases t.extractOne_frame r m with hs | ⟨p, u, hp, hu, hnode⟩
        · exact hs.within q x hq
        · have hne : q ≠ p := by
            rintro rfl
            exact h (mem_landings_cons hp)
          rw [hnode, if_neg hne, hu.within q x hq]
      rcases t.extract_cons r m ms with he | he
      · rw [he, h1]
      · rw [he]
        exact ih h1 h2

theorem extract_new {t : Tree} {r q : Loc} {x : Node} {ms : List (Str × Node)}
    (hq : (t.extract r ms).1.node q = some x) (hx : x ≠ .dir) (h : q ∉ t.landings r ms) :
    t.node q = some x := by
  induction ms generalizing t with
  | nil => exact hq
  | cons m ms ih =>
      have h2 : q ∉ (t.extractOne r m).1.landings r ms := fun hm => h (List.mem_append_right _ hm)
      have h1 : (t.extractOne r m).1.node q = some x := by
        rcases t.extract_cons r m ms with he | he
        · rw [he] at hq
          exact hq
        · rw [he] at hq
          exact ih hq h2
      rcases t.extractOne_frame r m with hs | ⟨p, u, hp, hu, hnode⟩
      · exact hs.new h1 hx
      · have hne : q ≠ p := by
          rintro rfl
          exact h (mem_landings_cons hp)
        rw [hnode, if_neg hne] at h1
        exact hu.new h1 hx

theorem extractOne_member {t : Tree} {r : Loc} {m : Str × Node} {n : Str}
    (hr : t.node r = some .dir) (hg : t.gentle r m = true) (hx : m.2 ≠ .dir)
    (hn : (names m.1).getLast? = some n) (h1 : n ≠ dot) (h2 : n ≠ dotdot)
    (h : (t.extractOne r m).2 = true) :
    ∃ p, (t.extractOne r m).1.placeAt r (names m.1) = some p ∧
    (t.extractOne r m).1.node p = some m.2 := by
  cases hp : (t.memberPlace r m.1).2 with
  | none =>
      exfalso
      rw [extractOne, hn] at h
      rw [memberPlace, hn] at hp
      rcases hm : t.mkdirs r (names m.1).dropLast with ⟨u, _ | d⟩
      · simp [hm] at h
      · simp only [hm, h1, h2, or_self, if_false] at h hp
        simp [hp] at h
  | some p =>
      have hs := t.memberPlace_spreads r m.1
      have hplace := memberPlace_placeAt hp
      rw [extractOne_at hp] at h ⊢
      cases hu : (t.memberPlace r m.1).1.placeMember p m.2 with
      | none => simp [hu] at h
      | some u =>
          simp only
          have hnode := (placeMember_cases hu).resolve_left fun he => hx he.1
          exact ⟨p, placeAt_keeps (placeMember_grows hg hp hu).toKeepsDirs
            (hs.within _ _ hr) hplace,
            by rw [hnode, if_pos rfl]⟩

theorem extract_member {t u : Tree} {r : Loc} {ms : List (Str × Node)} {m : Str × Node} {n : Str}
    (hr : t.node r = some .dir) (hg : t.gentleAll r ms = true) (hm : m ∈ ms) (hx : m.2 ≠ .dir)
    (hn : (names m.1).getLast? = some n) (h1 : n ≠ dot) (h2 : n ≠ dotdot)
    (h : t.extract r ms = (u, true)) :
    ∃ p y, u.placeAt r (names m.1) = some p ∧ u.node p = some y ∧ y ≠ .dir := by
  induction ms generalizing t with
  | nil => simp at hm
  | cons k ms ih =>
      rw [gentleAll, Bool.and_eq_true] at hg
      obtain ⟨hk, hrest⟩ := extract_cons_true h
      have hr' := (extractOne_grows hg.1).dir r hr
      rcases List.mem_cons.mp hm with rfl | hm
      · obtain ⟨p, hp, hnode⟩ := extractOne_member hr hg.1 hx hn h1 h2 hk
        have hgrow := extract_grows hg.2
        rw [hrest] at hgrow
        obtain ⟨y, hy, hyd⟩ := hgrow.file p _ hnode hx
        exact ⟨p, y, placeAt_keeps hgrow.toKeepsDirs hr' hp, hy, hyd⟩
      · exact ih hr' hg.2 hm hrest

theorem extract_append {t u : Tree} {r : Loc} {a b : List (Str × Node)}
    (h : t.extract r (a ++ b) = (u, true)) :
    ∃ v, t.extract r a = (v, true) ∧ v.extract r b = (u, true) := by
  induction a generalizing t with
  | nil => exact ⟨t, rfl, h⟩
  | cons m a ih =>
      obtain ⟨hm, hrest⟩ := extract_cons_true h
      obtain ⟨v, h1, h2⟩ := ih hrest
      refine ⟨v, ?_, h2⟩
      rw [extract]
      rcases ho : t.extractOne r m with ⟨w, b⟩
      rw [ho] at hm h1
      obtain rfl : b = true := hm
      exact h1

theorem gentleAll_append {t v : Tree} {r : Loc} {a b : List (Str × Node)}
    (h : t.extract r a = (v, true)) (hg : t.gentleAll r (a ++ b) = true) :
    t.gentleAll r a = true ∧ v.gentleAll r b = true := by
  induction a generalizing t with
  | nil =>
      obtain rfl : t = v := (Prod.mk.inj h).1
      exact ⟨rfl, hg⟩
  | cons m a ih =>
      obtain ⟨_, hrest⟩ := extract_cons_true h
      rw [List.cons_append, gentleAll, Bool.and_eq_true] at hg
      obtain ⟨h1, h2⟩ := ih hrest hg.2
      rw [gentleAll, Bool.and_eq_true]
      exact ⟨⟨hg.1, h1⟩, h2⟩

def Ships (t : Tree) (r : Loc) (ms : List (Str × Node)) (m : Str × Node) : Prop :=
  ∃ pre post, ms = pre ++ m :: post ∧
    ∀ q ∈ (t.extract r (pre ++ [m])).1.placeAt r (names m.1),
      q ∉ (t.extract r (pre ++ [m])).1.landings r post

theorem extract_shipped {t u : Tree} {r : Loc} {ms : List (Str × Node)} {m : Str × Node} {n : Str}
    (hr : t.node r = some .dir) (hg : t.gentleAll r ms = true) (hm : t.Ships r ms m)
    (hx : m.2 ≠ .dir) (hn : (names m.1).getLast? = some n) (h1 : n ≠ dot) (h2 : n ≠ dotdot)
    (h : t.extract r ms = (u, true)) :
    ∃ p, u.placeAt r (names m.1) = some p ∧ u.node p = some m.2 := by
  obtain ⟨pre, post, rfl, hlast⟩ := hm
  rw [show pre ++ m :: post = (pre ++ [m]) ++ post by simp] at h hg
  obtain ⟨w, hw, hpost⟩ := extract_append h
  obtain ⟨hg1, hg2⟩ := gentleAll_append hw hg
  obtain ⟨v, hv, hone⟩ := extract_append hw
  obtain ⟨hg3, hg4⟩ := gentleAll_append hv hg1
  rw [gentleAll, Bool.and_eq_true] at hg4
  have hvr : v.node r = some .dir := by
    have hgrow := extract_grows hg3
    rw [hv] at hgrow
    exact hgrow.dir r hr
  obtain ⟨hdone, he⟩ := extract_cons_true hone
  obtain ⟨p, hp, hnode⟩ := extractOne_member hvr hg4.1 hx hn h1 h2 hdone
  rw [show (v.extractOne r m).1 = w from (Prod.mk.inj he).1] at hp hnode
  rw [hw] at hlast
  have hgrow := extract_grows hg2
  have hkept := extract_unlanded hnode (hlast p hp)
  rw [hpost] at hgrow hkept
  refine ⟨p, placeAt_keeps hgrow.toKeepsDirs ?_ hp, hkept⟩
  have hwr := extract_grows hg1
  rw [hw] at hwr
  exact hwr.dir r hr

end Fidelix.Files.Tree
