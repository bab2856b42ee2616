import Fidelix.Files.Extract
import Fidelix.Files.Climb

namespace Fidelix.Files

open Text

/-- The location that a member, called `./path` by `tar`, has below the root of the extraction. -/
def memberLoc (s : Str) : Loc := (names s).tail.reverse

def carried (ms : List (Str × Node)) (q : Loc) : Option Node :=
  (ms.find? fun m => memberLoc m.1 == q).map Prod.snd

/-- A name `./path` without more dots; the directory itself is its own member. -/
def DottedMember (m : Str × Node) : Prop :=
  (names m.1).head? = some dot ∧ (∀ n ∈ (names m.1).tail, n ≠ dot ∧ n ≠ dotdot) ∧
    (memberLoc m.1 = [] → m.2.isDir = true)

instance (m : Str × Node) : Decidable (DottedMember m) := inferInstanceAs (Decidable (_ ∧ _ ∧ _))

def ParentsFirst : List Loc → List (Str × Node) → Prop
  | _, [] => True
  | seen, m :: ms => (memberLoc m.1).tail ∈ seen ∧
      ParentsFirst (if m.2.isDir then memberLoc m.1 :: seen else seen) ms

def decidableParentsFirst :
    (seen : List Loc) → (ms : List (Str × Node)) → Decidable (ParentsFirst seen ms)
  | _, [] => inferInstanceAs (Decidable True)
  | seen, m :: ms =>
      have := decidableParentsFirst (if m.2.isDir then memberLoc m.1 :: seen else seen) ms
      inferInstanceAs (Decidable ((memberLoc m.1).tail ∈ seen ∧
        ParentsFirst (if m.2.isDir then memberLoc m.1 :: seen else seen) ms))

instance (seen : List Loc) (ms : List (Str × Node)) : Decidable (ParentsFirst seen ms) :=
  decidableParentsFirst seen ms

/-- An archive as `tar` makes it: no two members for one place, and each after its directory. -/
structure WellFormed (ms : List (Str × Node)) : Prop where
  dotted : ∀ m ∈ ms, DottedMember m
  distinct : (ms.map fun m => memberLoc m.1).Nodup
  ordered : ParentsFirst [[]] ms

def Tree.Accepts (t : Tree) (m : Str × Node) : Prop :=
  if m.2.isDir then t.node (memberLoc m.1) = none ∨ t.node (memberLoc m.1) = some .dir
  else t.node (memberLoc m.1) ≠ some .dir

instance (t : Tree) (m : Str × Node) : Decidable (t.Accepts m) :=
  decidable_of_iff (if m.2.isDir then (t.node (memberLoc m.1)).isNone ∨
    t.dirAt (memberLoc m.1) = true
    else t.dirAt (memberLoc m.1) = false) (by
      rw [Tree.Accepts]
      split
      · rw [Option.isNone_iff_eq_none, Tree.dirAt_iff]
      · rw [← Bool.not_eq_true, Tree.dirAt_iff])

namespace Tree

def Overlaid (t : Tree) (ms : List (Str × Node)) (u : Tree) : Prop :=
  ∀ q, u.node q = (carried ms q).or (t.node q)

theorem isDir_iff_eq {x : Node} : x.isDir = true ↔ x = .dir := by
  cases x <;> simp [Node.isDir]

theorem names_dotted {m : Str × Node} (h : DottedMember m) :
    names m.1 = dot :: (memberLoc m.1).reverse := by
  obtain ⟨h1, _, _⟩ := h
  rw [memberLoc, List.reverse_reverse]
  cases hn : names m.1 with
  | nil => simp [hn] at h1
  | cons n ns =>
      rw [hn, List.head?_cons] at h1
      rw [Option.some.inj h1, List.tail_cons]

theorem dotted_proper {m : Str × Node} (h : DottedMember m) :
    ∀ n ∈ memberLoc m.1, n ≠ dot ∧ n ≠ dotdot := by
  intro n hn
  exact h.2.1 n (List.mem_reverse.mp hn)

theorem extractOne_real {t : Tree} {m : Str × Node} (h : DottedMember m)
    (hd : t.node (memberLoc m.1).tail = some .dir) (ha : t.Accepts m) :
    ∃ u, t.extractOne [] m = (u, true) ∧ ∀ q, u.node q = if q = memberLoc m.1 then some m.2
      else t.node q := by
  have hnames := names_dotted h
  have hproper := dotted_proper h
  cases hloc : memberLoc m.1 with
  | nil =>
      rw [hloc] at hnames
      have hdir : m.2 = .dir := isDir_iff_eq.mp (h.2.2 hloc)
      refine ⟨t, ?_, fun q => ?_⟩
      · have hlast : (names m.1).getLast? = some dot := by rw [hnames]; rfl
        have hinit : (names m.1).dropLast = [] := by rw [hnames]; rfl
        rw [extractOne, hlast, hinit]
        simp [mkdirs]
      · by_cases hq : q = []
        · rw [hq, if_pos rfl, t.root, hdir]
        · rw [if_neg hq]
  | cons n d =>
      rw [hloc, List.reverse_cons] at hnames
      rw [hloc, List.tail_cons] at hd
      have hn := hproper n (by simp [hloc])
      have hdp : ∀ k ∈ d, k ≠ dot ∧ k ≠ dotdot := fun k hk => hproper k (by simp [hloc, hk])
      have hlast : (names m.1).getLast? = some n := by
        rw [hnames, ← List.cons_append, List.getLast?_concat]
      have hinit : (names m.1).dropLast = dot :: d.reverse := by
        rw [hnames, ← List.cons_append, List.dropLast_concat]
      have hmk : t.mkdirs [] (dot :: d.reverse) = (t, some d) := by
        rw [mkdirs, if_pos rfl]
        exact mkdirs_of_walks (walks_real linkLimit hdp hd) le_rfl t.root hd
      have hplace : t.placeAt [] (names m.1) = some (n :: d) := by
        rw [hnames, placeAt_dot t [] (by simp)]
        have hp := placeAt_real (n := n) (q := d) (fun k hk => ?_) hd
        · rwa [List.reverse_cons] at hp
        · rcases List.mem_cons.mp hk with rfl | hk
          · exact hn
          · exact hdp k hk
      have hput : ∃ u, t.placeMember (n :: d) m.2 = some u ∧ ∀ q, u.node q = if q = n :: d
        then some m.2 else t.node q := by
        rw [Accepts, hloc] at ha
        by_cases hx : m.2.isDir = true
        · rw [if_pos hx] at ha
          have hxd := isDir_iff_eq.mp hx
          rw [hxd, placeMember]
          rcases ha with ha | ha
          · obtain ⟨u, hu⟩ := put_isSome .dir hd (by rw [ha]; simp)
            refine ⟨u, ?_, put_node hu⟩
            rw [leadsToDir_none ha, if_neg (by simp), hu]
          · refine ⟨t, if_pos (leadsToDir_iff.mpr (.inl ha)), fun q => ?_⟩
            by_cases hq : q = n :: d
            · rw [if_pos hq, hq, ha]
            · rw [if_neg hq]
        · rw [if_neg hx] at ha
          obtain ⟨u, hu⟩ := put_isSome m.2 hd ha
          refine ⟨u, ?_, put_node hu⟩
          have hno : t.dirAt (n :: d) = false := by
            rw [← Bool.not_eq_true, dirAt_iff]
            exact ha
          cases hm : m.2 with
          | dir => exact absurd (isDir_iff_eq.mpr hm) hx
          | file _ _ | archive _ _ | link _ =>
              rw [placeMember, hno, if_neg (by simp), ← hm, hu]
              simp
      obtain ⟨u, hu, hnode⟩ := hput
      refine ⟨u, ?_, hnode⟩
      rw [extractOne, hlast, hinit]
      simp only [hmk, hn.1, hn.2, or_self, if_false]
      rw [hplace, Option.bind_some, hu]

theorem carried_cons (m : Str × Node) (ms : List (Str × Node)) (q : Loc) :
    carried (m :: ms) q = if q = memberLoc m.1 then some m.2 else carried ms q := by
  rw [carried, List.find?_cons]
  by_cases hq : q = memberLoc m.1
  · simp [hq]
  · have hne : (memberLoc m.1 == q) = false := by simpa using Ne.symm hq
    rw [if_neg hq, hne]
    rfl

theorem carried_eq_none {ms : List (Str × Node)} {q : Loc} :
    carried ms q = none ↔ ∀ m ∈ ms, memberLoc m.1 ≠ q := by
  simp [carried]

theorem extract_seen {t : Tree} {seen : List Loc} {ms : List (Str × Node)}
    (hdot : ∀ m ∈ ms, DottedMember m) (hdist : (ms.map fun m => memberLoc m.1).Nodup)
    (hord : ParentsFirst seen ms) (hseen : ∀ d ∈ seen, t.node d = some .dir)
    (hacc : ∀ m ∈ ms, t.Accepts m) :
    ∃ u, t.extract [] ms = (u, true) ∧ t.Overlaid ms u := by
  induction ms generalizing t seen with
  | nil => exact ⟨t, rfl, fun _ => rfl⟩
  | cons m ms ih =>
      rw [List.map_cons, List.nodup_cons] at hdist
      obtain ⟨hparent, hrest⟩ := hord
      obtain ⟨u, hu, hnode⟩ :=
        extractOne_real (hdot m (by simp)) (hseen _ hparent) (hacc m (by simp))
      have hother : ∀ k ∈ ms, u.node (memberLoc k.1) = t.node (memberLoc k.1) := by
        intro k hk
        rw [hnode, if_neg fun he => hdist.1 (List.mem_map.mpr ⟨k, hk, he⟩)]
      have hkept : ∀ d ∈ seen, u.node d = some .dir := by
        intro d hd
        rw [hnode]
        split
        · rename_i he
          have ha := hacc m (by simp)
          rw [Accepts] at ha
          by_cases hx : m.2.isDir = true
          · rw [isDir_iff_eq.mp hx]
          · rw [if_neg hx, ← he, hseen d hd] at ha
            exact absurd rfl ha
        · exact hseen d hd
      have hseen' : ∀ d ∈ if m.2.isDir then memberLoc m.1 :: seen
        else seen, u.node d = some .dir := by
        intro d hd
        split at hd
        · rename_i hx
          rcases List.mem_cons.mp hd with rfl | hd
          · rw [hnode, if_pos rfl, isDir_iff_eq.mp hx]
          · exact hkept d hd
        · exact hkept d hd
      have hacc' : ∀ k ∈ ms, u.Accepts k := by
        intro k hk
        rw [Accepts, hother k hk]
        exact hacc k (by simp [hk])
      obtain ⟨v, hv, hover⟩ := ih (fun k hk => hdot k (by simp [hk])) hdist.2 hrest hseen' hacc'
      refine ⟨v, ?_, fun q => ?_⟩
      · rw [extract, hu]
        exact hv
      · rw [hover, carried_cons, hnode]
        by_cases hq : q = memberLoc m.1
        · have hnone : carried ms q = none :=
            carried_eq_none.mpr fun k hk he => hdist.1 (List.mem_map.mpr ⟨k, hk, he.trans hq⟩)
          rw [if_pos hq, if_pos hq, hnone]
          rfl
        · rw [if_neg hq, if_neg hq]

theorem extract_overlaid {t : Tree} {ms : List (Str × Node)} (h : WellFormed ms)
    (hacc : ∀ m ∈ ms, t.Accepts m) :
    ∃ u, t.extract [] ms = (u, true) ∧ t.Overlaid ms u := by
  refine extract_seen h.dotted h.distinct h.ordered (fun d hd => ?_) hacc
  rw [List.mem_singleton.mp hd, t.root]

theorem carried_mem {ms : List (Str × Node)} (h : (ms.map fun m => memberLoc m.1).Nodup)
    {m : Str × Node} (hm : m ∈ ms) :
    carried ms (memberLoc m.1) = some m.2 := by
  induction ms with
  | nil => simp at hm
  | cons k ms ih =>
      rw [List.map_cons, List.nodup_cons] at h
      rw [carried_cons]
      rcases List.mem_cons.mp hm with rfl | hm
      · rw [if_pos rfl]
      · rw [if_neg fun he => h.1 (List.mem_map.mpr ⟨m, hm, he⟩), ih h.2 hm]

theorem mem_of_carried {ms : List (Str × Node)} {q : Loc} {x : Node} (h : carried ms q = some x) :
    ∃ m ∈ ms, memberLoc m.1 = q ∧ m.2 = x := by
  obtain ⟨m, hm, rfl⟩ := Option.map_eq_some_iff.mp h
  exact ⟨m, List.mem_of_find?_eq_some hm, by simpa using List.find?_some hm, rfl⟩

theorem parent_carried {seen : List Loc} {ms : List (Str × Node)}
    (hdist : (ms.map fun m => memberLoc m.1).Nodup) (hord : ParentsFirst seen ms) {m : Str × Node}
    (hm : m ∈ ms) {e : Loc} (he : e <:+ (memberLoc m.1).tail) :
    (∃ d ∈ seen, e <:+ d) ∨ carried ms e = some .dir := by
  induction ms generalizing seen m with
  | nil => simp at hm
  | cons k ms ih =>
      rw [List.map_cons, List.nodup_cons] at hdist
      rcases List.mem_cons.mp hm with rfl | hm
      · exact .inl ⟨_, hord.1, he⟩
      · rcases ih hdist.2 hord.2 hm he with ⟨d, hd, hsuf⟩ | hship
        · split at hd
          · rename_i hx
            rcases List.mem_cons.mp hd with rfl | hd
            · by_cases hek : e = memberLoc k.1
              · right
                rw [carried_cons, if_pos hek, isDir_iff_eq.mp hx]
              · left
                refine ⟨_, hord.1, ?_⟩
                obtain ⟨n, d, hk⟩ := List.exists_cons_of_ne_nil (l := memberLoc k.1) fun h0 => by
                  rw [h0] at hsuf hek
                  exact hek (List.suffix_nil.mp hsuf)
                rw [hk] at hsuf hek ⊢
                exact (List.suffix_cons_iff.mp hsuf).resolve_left hek
            · exact .inl ⟨d, hd, hsuf⟩
          · exact .inl ⟨d, hd, hsuf⟩
        · right
          obtain ⟨j, hj, hje, _⟩ := mem_of_carried hship
          rw [carried_cons, if_neg fun hek =>
            hdist.1 (List.mem_map.mpr ⟨j, hj, hje.trans hek⟩), hship]

end Tree

end Fidelix.Files
