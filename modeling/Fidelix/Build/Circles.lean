import Fidelix.Build.Dependencies

namespace Fidelix.Build

open Text Files Pkgtools Make Relation

section

variable {Machine Root File : Type} (src : Sources) (tools : Tools Machine Root File)

def Missing (m : Machine) (d e : Str) : Prop :=
  src.Requires d e ∧ ∀ p, src.DIR_PKG d = some (.package p) → p._PKG_FULL_NAME ∉ tools.pkgdb m

def Resolved (m : Machine) (d : Str) : Prop := Acc (fun e d => Missing src tools m d e) d

variable {src tools}

theorem Present.resolved {m : Machine} {d : Str} (h : Present src tools m d) :
    Resolved src tools m d := by
  induction h with
  | package h hin => exact ⟨_, fun e he => absurd hin (he.2 _ h)⟩
  | group h _ ih =>
      refine ⟨_, fun e he => ih e ?_⟩
      have hreq := he.1
      rwa [Sources.Requires, Sources.requires, h] at hreq
  | other h _ ih =>
      refine ⟨_, fun e he => ih e ?_⟩
      have hreq := he.1
      rwa [Sources.Requires, Sources.requires, h] at hreq

variable (src tools)

theorem gained_resolved (m : Machine) : Gained src tools fun _ => Resolved src tools m where
  mono _ h := h
  package _ p hp _ hall := ⟨_, fun e he => hall e (by
    have hreq := he.1
    rwa [Sources.Requires, hp.requires] at hreq)⟩
  group _ d g h hall := ⟨_, fun e he => hall e (by
    have hreq := he.1
    rwa [Sources.Requires, Sources.requires, h] at hreq)⟩
  other _ d packages h hall := ⟨_, fun e he => hall e (by
    have hreq := he.1
    rwa [Sources.Requires, Sources.requires, h] at hreq)⟩

variable {src tools} {Fine : Machine → Prop} {Made : Package → File → Prop}

theorem Sound.resolved {s : Site Machine Root File}
    (hs : Sound src tools (Present src tools) Fine Made s) :
    Sound src tools (fun _ => Resolved src tools s.machine) Fine Made s where
  fine := hs.fine
  made := hs.made
  stamped p hp h d hd := (hs.stamped p hp h d hd).resolved
  packaged p hp h d hd := (hs.packaged p hp h d hd).resolved
  installed p hp h d hd := (hs.installed p hp h d hd).resolved

theorem resolved_of_make (hl : Laws src tools Fine Made) {s : Site Machine Root File}
    (hs : Sound src tools (Present src tools) Fine Made s) {n : ℕ} {d : Str}
    {o : Outcome Command (Site Machine Root File)}
    (h : (makefiles src tools).make n (.all .install d) s = some o) (hok : o.ok = true) :
    Resolved src tools s.machine d := by
  have hmeets := dependencySpec_met (gained_resolved src tools s.machine) hl
  obtain ⟨⟨_, hach⟩, _⟩ := (Rules.runs_of_make h).grants hmeets (hmeets _ _ ⟨hs.resolved, by simp⟩)
  exact hach hok rfl

theorem Laws.onward (hl : Laws src tools Fine Made) (m₀ : Machine) :
    Laws src tools (fun m => Fine m ∧ Grows src tools m₀ m) Made := by
  have hq {m m' : Machine} (hm : Fine m ∧ Grows src tools m₀ m) (h : Quiet tools Fine m m') :
      Quiet tools (fun m => Fine m ∧ Grows src tools m₀ m) m m' := ⟨⟨h.1, hm.2.trans h.grows⟩, h.2⟩
  refine ⟨fun t p m hm => hq hm (hl.fetch t p m hm.1), fun p m hm => hq hm (hl.unpack p m hm.1),
    fun p x m hm => hq hm (hl.build p x m hm.1), fun t p m hm => hq hm (hl.sweep t p m hm.1),
    fun t d m hm => hq hm (hl.other t d m hm.1), fun p x m hm => ?_, fun p f m hp hm hf => ?_⟩
  · obtain ⟨h1, h2⟩ := hl.makepkg p x m hm.1
    exact ⟨hq hm h1, h2⟩
  · obtain ⟨h1, h2, h3⟩ := hl.upgradepkg p f m hp hm.1 hf
    refine ⟨⟨h1, hm.2.trans fun q hq hin => ?_⟩, h2, h3⟩
    by_cases he : q = p
    · rw [he] at hin ⊢
      exact h2 (.inr hin)
    · refine (h3 _ fun hn => he (src.named _ _ q p hq hp ?_)).mpr hin
      rw [← hn, ← q.id.nameOfEntry_full]
      rfl

variable (src tools Fine Made) in
def Calls (m₀ : Machine) (g' g : Goal) : Prop :=
  ∃ t : Site Machine Root File,
    (dependencySpec src tools (Present src tools) (fun m => Fine m ∧ Grows src tools m₀ m)
    Made).pre g t ∧
    .goal g' ∈ recipe src tools g t

theorem acc_install {m₀ : Machine} {d : Str} (h : Resolved src tools m₀ d) :
    Acc (Calls src tools Fine Made m₀) (.all .install d) := by
  induction h with
  | intro d _ ih =>
      -- the goals in the directory of a package that is not installed
      have hpackage (p : Package) (hp : src.Has p) (hneeds : ∀ e ∈ p.needs,
          Acc (Calls src tools Fine Made m₀) (.all .install e)) :
          Acc (Calls src tools Fine Made m₀) (.package p) := by
        have hdeps : Acc (Calls src tools Fine Made m₀) (.stamp_dependencies p) := by
          refine ⟨_, ?_⟩
          rintro g' ⟨t, _, hg'⟩
          simp only [recipe, List.mem_append, List.mem_map, List.mem_singleton, reduceCtorEq,
            or_false] at hg'
          obtain ⟨e, he, hg'⟩ := hg'
          cases hg'
          exact hneeds e (List.mem_append_left _ he)
        have hstamp : Acc (Calls src tools Fine Made m₀) (.stamp_build p) := by
          refine ⟨_, ?_⟩
          rintro g' ⟨t, _, hg'⟩
          rw [recipe] at hg'
          split at hg'
          · split at hg' <;> simp at hg'
          · rename_i hb
            simp only [List.mem_append, List.mem_cons, reduceCtorEq, false_or, List.not_mem_nil,
              or_false] at hg'
            split at hg'
            · rename_i hpatch
              obtain rfl : g' = .all .install patch := by simpa using hg'
              exact hneeds patch (by rw [Package.needs, if_pos ⟨hb, hpatch⟩]; simp)
            · simp at hg'
        refine ⟨_, ?_⟩
        rintro g' ⟨t, _, hg'⟩
        rw [recipe, List.mem_append] at hg'
        rcases hg' with hg' | hg'
        · split at hg'
          · simp at hg'
          · obtain rfl : g' = .stamp_dependencies p := by simpa using hg'
            exact hdeps
        · split at hg'
          · simp at hg'
          · obtain rfl : g' = .stamp_build p := by simpa using hg'
            exact hstamp
      refine ⟨_, ?_⟩
      rintro g' ⟨t, hpre, hg'⟩
      have hmissing {ds : List Str} (hds : src.requires d = ds) (hno : ∀ p,
          src.DIR_PKG d ≠ some (.package p)) (e : Str) (he : e ∈ ds) :
          Acc (Calls src tools Fine Made m₀) (.all .install e) :=
        ih e ⟨by rw [Sources.Requires, hds]; exact he, fun p hp => absurd hp (hno p)⟩
      rw [recipe] at hg'
      split at hg'
      · simp at hg'
      · rename_i p hp
        rw [Package.recipe] at hg'
        split at hg'
        · simp at hg'
        · rename_i hout
          obtain rfl : g' = .package p := by simpa using hg'
          have hhas := src.has hp
          have hout₀ : p._PKG_FULL_NAME ∉ tools.pkgdb m₀ :=
            fun hin => hout (hpre.1.fine.2 p hhas hin)
          refine hpackage p hhas fun e he => ih e ⟨?_, fun q hq => ?_⟩
          · rw [← src.dir d p hp, Sources.Requires, hhas.requires]
            exact he
          · rw [hp] at hq
            cases hq
            exact hout₀
      · rename_i gr hgr
        obtain ⟨e, he, hg'⟩ := List.mem_map.mp hg'
        cases hg'
        have he' : e ∈ gr.DIR_TARGETS := he
        exact hmissing (by rw [Sources.requires, hgr])
          (fun p hp => by rw [hgr] at hp; cases hp) e he'
      · rename_i packages hpk
        simp only [if_true, List.mem_append, List.mem_map, List.mem_singleton, reduceCtorEq,
          or_false] at hg'
        obtain ⟨e, he, hg'⟩ := hg'
        cases hg'
        exact hmissing (by rw [Sources.requires, hpk])
          (fun p hp => by rw [hpk] at hp; cases hp) e he

theorem make_of_resolved (hl : Laws src tools Fine Made) {s : Site Machine Root File}
    (hs : Sound src tools (Present src tools) Fine Made s) {d : Str}
    (h : Resolved src tools s.machine d) :
    ∃ n o, (makefiles src tools).make n (.all .install d) s = some o := by
  have hpre :
    (dependencySpec src tools (Present src tools) (fun m =>
    Fine m ∧ Grows src tools s.machine m) Made).pre
      (.all .install d) s :=
    ⟨⟨⟨hs.fine, .refl _⟩, hs.made, hs.stamped, hs.packaged, hs.installed⟩, by simp⟩
  obtain ⟨o, ho⟩ := (dependencySpec_met (gained_present src tools) (hl.onward s.machine)).ends
    (fun g t hg g' hg' => ⟨t, hg, hg'⟩) (acc_install h) hpre
  obtain ⟨n, hn⟩ := Rules.make_iff.mpr ho
  exact ⟨n, o, hn⟩

variable (src tools Fine Made)

structure Works : Prop where
  fetch : ∀ p m, Fine m → (tools.fetch .verify p m).2 = true
  unpack : ∀ p m, Fine m → (tools.unpack p m).2 = true
  build : ∀ p x m, Fine m → (∀ d ∈ p.needs, Present src tools m d) → (tools.build p x m).2.2 = true
  makepkg : ∀ p x m, Fine m → (tools.makepkg p x m).2.2.2 = true ∧
    (tools.makepkg p x m).2.2.1.isSome
  upgradepkg : ∀ p f m, Fine m → Made p f → (tools.upgradepkg p f m).2 = true
  other : ∀ d m, Fine m → (tools.other .install d m).2 = true

def Smooth : Goal → Site Machine Root File → Site Machine Root File → Prop
  | .all _ d, s, t => Present src tools s.machine d → t.files = s.files
  | .package p, _, t => (t.files p._PKG_FULL_NAME).isSome
  | .stamp_dependencies p, s, t => (∀ d ∈ p.PKG_BUILD_DEPENDS, Present src tools s.machine d) →
  t.files = s.files
  | .stamp_build _, _, _ => True

/-- Of the installs of what is in the tree. A package file that is there is not lost meanwhile,
since nothing is built for the sake of packages that are present. -/
def smoothSpec : Rules.Spec Goal Command (Site Machine Root File) where
  pre g _ := match g with
    | .all t d => t = .install ∧ (src.DIR_PKG d).isSome
    | _ => True
  post g s o := o.ok = true ∧ Smooth src tools g s o.state
  asks _ _ := True

variable {src tools Fine Made}

theorem grants_smooth {g : Goal} {c : Command} {s t : Site Machine Root File} {l : List Command}
    (hok : (t.perform tools c).2 = true) (h : Smooth src tools g s (t.perform tools c).1) :
    (makefiles src tools).Grants ((dependencySpec src tools (Present src tools) Fine Made).beside
      (smoothSpec src tools))
      [.command c] t fun o => (smoothSpec src tools).post g s (o.after l) := by
  refine ⟨trivial, ?_⟩
  rw [show (makefiles src tools).perform c t = t.perform tools c from rfl, if_pos hok]
  exact ⟨rfl, h⟩

theorem grants_smooth_all {g : Goal} {s : Site Machine Root File} {ds : List Str}
    (hds : ∀ d ∈ ds, (src.DIR_PKG d).isSome) {ls : List (Line Goal Command)}
    (hrest : ∀ l u, (Fine s.machine → Fine u.machine) →
      ((∀ d ∈ ds, Present src tools s.machine d) → u.files = s.files) →
    (makefiles src tools).Grants ((dependencySpec src tools (Present src tools) Fine Made).beside
      (smoothSpec src tools)) ls u fun o => (smoothSpec src tools).post g s (o.after l)) :
    (makefiles src tools).Grants ((dependencySpec src tools (Present src tools) Fine Made).beside
      (smoothSpec src tools))
      (ds.map (fun d => .goal (.all .install d)) ++ ls) s ((smoothSpec src tools).post g s) := by
  refine Rules.grants_goals (I := fun _ u => (Fine s.machine → Fine u.machine) ∧
    Grows src tools s.machine u.machine ∧
      ((∀ d ∈ ds, Present src tools s.machine d) → u.files = s.files)) (D := fun _ _ => True)
    (fun d hd l u hu => And.intro rfl (hds d hd)) (fun d hd l u o hu ho hok => ?_)
      (fun d hd l u o hu ho hok => ?_)
    (fun l u hu _ => hrest l u hu.1 hu.2.2) ⟨id, .refl _, fun _ => rfl⟩
  · obtain ⟨⟨hadv, _⟩, _, hfiles⟩ := ho
    refine ⟨⟨fun _ => hadv.sound.fine, hu.2.1.trans hadv.grows, fun hall => ?_⟩, trivial,
      fun _ _ _ => trivial⟩
    rw [hfiles ((hall d hd).mono hu.2.1), hu.2.2 hall]
  · rw [ho.2.1] at hok
    cases hok

theorem smooth_all (hw : Works src tools Fine Made)
    (hclosed : ∀ d e, src.Requires d e → (src.DIR_PKG e).isSome) {s : Site Machine Root File}
    (hs : Sound src tools (Present src tools) Fine Made s) {d : Str}
    (hd : (src.DIR_PKG d).isSome) :
    (makefiles src tools).Grants ((dependencySpec src tools (Present src tools) Fine Made).beside
      (smoothSpec src tools))
      (recipe src tools (.all .install d) s) s
      ((smoothSpec src tools).post (.all .install d) s) := by
  have hfound (ds : List Str) (hds : src.requires d = ds) :
    ∀ e ∈ ds, (src.DIR_PKG e).isSome := by
    intro e he
    apply hclosed d e
    rw [Sources.Requires, hds]
    exact he
  rw [recipe]
  split
  · rename_i hnone
    rw [hnone] at hd
    cases hd
  · rename_i p hp
    rw [Package.recipe]
    split
    · exact ⟨rfl, fun _ => rfl⟩
    · rename_i hout
      refine ⟨trivial, fun o ho => ?_⟩
      obtain ⟨⟨hadv, _⟩, hok, hfile⟩ := ho
      rw [if_pos hok]
      obtain ⟨f, hf⟩ := Option.isSome_iff_exists.mp hfile
      refine grants_smooth ?_ fun hpres => ?_
      · simp only [Site.perform, hf]
        exact hw.upgradepkg p f _ hadv.sound.fine (hadv.sound.made p f (src.has hp) hf)
      · rw [← src.dir d p hp] at hpres
        exact absurd ((present_package (src.has hp)).mp hpres) hout
  · rename_i gr hgr
    rw [← List.append_nil (List.map _ _)]
    refine grants_smooth_all (hfound gr.DIR_TARGETS (by rw [Sources.requires, hgr])) fun l u
      _ hfiles => ?_
    refine ⟨rfl, fun hpres => hfiles fun e he => ?_⟩
    cases hpres with
    | package h _ =>
        rw [hgr] at h
        cases h
    | group h hall =>
        rw [hgr] at h
        cases h
        exact hall e he
    | other h _ =>
        rw [hgr] at h
        cases h
  · rename_i packages hpk
    rw [if_pos rfl]
    refine grants_smooth_all (hfound packages (by rw [Sources.requires, hpk])) fun l u
      hfine hfiles => ?_
    refine grants_smooth (hw.other d _ (hfine hs.fine)) fun hpres => hfiles fun e he => ?_
    cases hpres with
    | package h _ =>
        rw [hpk] at h
        cases h
    | group h _ =>
        rw [hpk] at h
        cases h
    | other h hall =>
        rw [hpk] at h
        cases h
        exact hall e he

theorem smooth_package (hw : Works src tools Fine Made) {s : Site Machine Root File}
    (hs : Sound src tools (Present src tools) Fine Made s) {p : Package} (h : src.Has p) :
    (makefiles src tools).Grants ((dependencySpec src tools (Present src tools) Fine Made).beside
      (smoothSpec src tools))
      (recipe src tools (.package p) s) s ((smoothSpec src tools).post (.package p) s) := by
  have hfile (u : Site Machine Root File) (l : List Command) (hu : Fine u.machine)
      (hsome : (s.files p._PKG_FULL_NAME).isSome → u.files = s.files) :
      (makefiles src tools).Grants
        ((dependencySpec src tools (Present src tools) Fine Made).beside (smoothSpec src tools))
        (if (s.files p._PKG_FULL_NAME).isSome then []
          else [.goal (.stamp_build p), .command (.makepkg p)]) u
        fun o => (smoothSpec src tools).post (.package p) s (o.after l) := by
    split
    · rename_i hin
      refine ⟨rfl, ?_⟩
      show (u.files p._PKG_FULL_NAME).isSome
      rw [hsome hin]
      exact hin
    · refine ⟨trivial, fun o ho => ?_⟩
      obtain ⟨⟨hadv, _⟩, hok, _⟩ := ho
      rw [if_pos hok]
      have hmade := hw.makepkg p ((o.state.pkg_root p.dir).getD tools.empty) _ hadv.sound.fine
      refine grants_smooth (l := l) hmade.1 ?_
      show ((o.state.makepkg tools p).1.files p._PKG_FULL_NAME).isSome
      simp only [Site.makepkg, Function.update_self]
      exact hmade.2
  rw [recipe]
  split
  · exact hfile s [] hs.fine fun _ => rfl
  · refine ⟨trivial, fun o ho => ?_⟩
    obtain ⟨⟨hadv, _⟩, hok, hfiles⟩ := ho
    rw [if_pos hok]
    exact hfile o.state o.log hadv.sound.fine fun hin =>
      hfiles fun d hd => hs.packaged p h hin d (List.mem_append_left _ hd)

theorem smooth_stamp_build (hl : Laws src tools Fine Made) (hw : Works src tools Fine Made)
    (hclosed : ∀ d e, src.Requires d e → (src.DIR_PKG e).isSome) {s : Site Machine Root File}
    (hs : Sound src tools (Present src tools) Fine Made s) {p : Package}
    (hhas : src.Has p) (hall : ∀ d ∈ p.PKG_BUILD_DEPENDS, Present src tools s.machine d) :
    (makefiles src tools).Grants ((dependencySpec src tools (Present src tools) Fine Made).beside
      (smoothSpec src tools))
      (recipe src tools (.stamp_build p) s) s ((smoothSpec src tools).post (.stamp_build p) s) := by
  have hP := gained_present src tools
  have hbuild (u : Site Machine Root File) (l : List Command)
    (hu : Sound src tools (Present src tools) Fine Made u)
      (hneeds : ∀ d ∈ p.needs, Present src tools u.machine d) :
      (makefiles src tools).Grants
        ((dependencySpec src tools (Present src tools) Fine Made).beside (smoothSpec src tools))
        [.command (.build p)] u fun o =>
          (smoothSpec src tools).post (.stamp_build p) s (o.after l) := by
    refine grants_smooth ?_ trivial
    show (u.build tools p).2 = true
    rw [Site.build]
    apply hw.build
    · split
      · exact (hu.remove hP hl .clean p).2.1
      · exact hu.fine
    · intro d hd
      split
      · exact (hneeds d hd).mono (hu.remove hP hl .clean p).2.grows
      · exact hneeds d hd
  rw [recipe]
  cases hb : p.PKG_BUILDSYSTEM with
  | custom c =>
      simp only
      split
      · exact ⟨rfl, trivial⟩
      · refine hbuild s [] hs fun d hd => hall d ?_
        rwa [Package.needs, hb, if_neg (by simp), List.append_nil] at hd
  | common =>
      obtain ⟨h1, h2⟩ := hs.prepare hP hl p
      have hok : (s.prepare tools p).2 = true := by
        rw [Site.prepare]
        simp only
        rw [if_pos (hw.fetch p _ hs.fine)]
        exact hw.unpack p _ (hl.fetch .verify p _ hs.fine).1
      refine ⟨trivial, ?_⟩
      rw [show (makefiles src tools).perform (.prepare p) s = s.prepare tools p
        from rfl, if_pos hok]
      by_cases hpatch : p.patches = true
      · have hmem : patch ∈ p.needs := by
          rw [Package.needs, if_pos ⟨hb, hpatch⟩]
          simp
        rw [if_pos hpatch]
        refine ⟨⟨rfl, hclosed p.dir patch (by
          rw [Sources.Requires, hhas.requires]; exact hmem)⟩, fun o ho => ?_⟩
        obtain ⟨⟨hadv, hach⟩, hok', _⟩ := ho
        rw [if_pos hok']
        refine hbuild o.state ([.prepare p] ++ o.log) hadv.sound fun d hd => ?_
        rw [Package.needs, if_pos ⟨hb, hpatch⟩, List.mem_append, List.mem_singleton] at hd
        rcases hd with hd | rfl
        · exact ((hall d hd).mono h2.grows).mono hadv.grows
        · exact hach hok' rfl
      · rw [if_neg hpatch]
        refine hbuild _ [.prepare p] h1 fun d hd => ?_
        rw [Package.needs, if_neg (by simp [hpatch]), List.append_nil] at hd
        exact (hall d hd).mono h2.grows

theorem smoothSpec_met (hl : Laws src tools Fine Made) (hw : Works src tools Fine Made)
    (hclosed : ∀ d e, src.Requires d e → (src.DIR_PKG e).isSome) {g : Goal}
    {s : Site Machine Root File}
    (h : (dependencySpec src tools (Present src tools) Fine Made).pre g s)
    (hg : (smoothSpec src tools).pre g s) :
    (makefiles src tools).Grants ((dependencySpec src tools (Present src tools) Fine Made).beside
      (smoothSpec src tools))
      (recipe src tools g s) s ((smoothSpec src tools).post g s) := by
  obtain ⟨hs, h⟩ := h
  cases g with
  | all t d =>
      obtain ⟨rfl, hd⟩ := hg
      exact smooth_all hw hclosed hs hd
  | package p => exact smooth_package hw hs h
  | stamp_dependencies p =>
      have hhas : src.Has p := h
      rw [recipe]
      refine grants_smooth_all (fun d hd => hclosed p.dir d ?_) fun l u _ hfiles =>
        grants_smooth rfl hfiles
      rw [Sources.Requires, hhas.requires]
      exact List.mem_append_left _ hd
  | stamp_build p => exact smooth_stamp_build hl hw hclosed hs h.1 h.2

/-- Where nothing goes wrong, an install ends if and only if there is an end to what has to be
there first, and then it succeeds. -/
theorem install_ends_iff (hl : Laws src tools Fine Made) (hw : Works src tools Fine Made)
    (hclosed : ∀ d e, src.Requires d e → (src.DIR_PKG e).isSome) (s : Site Machine Root File)
    (hs : Sound src tools (Present src tools) Fine Made s) (d : Str) (hd : (src.DIR_PKG d).isSome) :
    ((∃ n o, (makefiles src tools).make n (.all .install d) s = some o) ↔
      Resolved src tools s.machine d) ∧
      ∀ n o, (makefiles src tools).make n (.all .install d) s = some o → o.ok = true := by
  have hmeets := (dependencySpec_met (gained_present src tools) hl).and fun g t hg hg' =>
    smoothSpec_met hl hw hclosed hg hg'
  have hok : ∀ n o, (makefiles src tools).make n (.all .install d) s = some o → o.ok = true := by
    intro n o h
    exact ((Rules.runs_of_make h).grants hmeets (hmeets _ _ ⟨⟨hs, by simp⟩, rfl, hd⟩)).1.2.1
  refine ⟨⟨?_, make_of_resolved hl hs⟩, hok⟩
  rintro ⟨n, o, h⟩
  exact resolved_of_make hl hs h (hok n o h)

end

theorem works_plainTools (src : Sources) :
    Works src plainTools (fun _ => True) fun p f => f = p._PKG_FULL_NAME where
  fetch _ _ _ := rfl
  unpack _ _ _ := rfl
  build _ _ _ _ _ := rfl
  makepkg _ _ _ _ := ⟨rfl, rfl⟩
  upgradepkg _ _ _ _ _ := rfl
  other _ _ _ := rfl

def Makefile.requires : Makefile → List Str
  | .package p => p.needs
  | .group g => g.DIR_TARGETS
  | .other packages => packages

theorem base_closed (d e : Str) (h : base.Requires d e) : (base.DIR_PKG e).isSome := by
  rw [Sources.Requires, Sources.requires] at h
  have hall : ∀ x ∈ ((baseDir, .group baseGroup) ::
      [linuxHeaders, musl, patchPackage, libressl, pkgtools].map fun p => (p.dir, .package p) :
        List (Str × Makefile)),
      ∀ e ∈ x.2.requires, (base.DIR_PKG e).isSome := by
    decide
  split at h
  · cases h
  all_goals
    rename_i hx
    obtain ⟨x, hx, hm⟩ := Option.map_eq_some_iff.mp hx
    refine hall x (List.mem_of_find?_eq_some hx) e ?_
    rw [hm]
    exact h

theorem install_ends_iff_libressl :
    ((∃ n o, (makefiles base plainTools).make n (.all .install libressl.dir) freshSite = some o) ↔
      Resolved base plainTools freshSite.machine libressl.dir) ∧
    ∀ n o, (makefiles base plainTools).make n (.all .install libressl.dir) freshSite = some o →
    o.ok = true :=
  install_ends_iff (laws_plainTools base) (works_plainTools base) base_closed freshSite
    (sound_freshSite base _) libressl.dir
    (by decide)

end Fidelix.Build
