import Fidelix.Services.Boot

namespace Fidelix.Services

open Text Files Pkgtools

def Untouched (svc : Str) (t t' : Tree) : Prop :=
  ∀ m, m ∈ linksOf t svc ∨ m ∈ linksOf t' svc → t'.node (m :: enabledLoc) = t.node (m :: enabledLoc)

/-- The commands end; each leaves the links of the other services alone; and
whether a service is started on boot depends on its own commands only. -/
structure Independent (vars : Vars) (t : Tree) (cs : List Command) : Prop where
  ends : (runAll vars cs t).isSome
  alone : ∀ pre c post u v, cs = pre ++ c :: post → runAll vars pre t = some u →
    c.run vars u = some v →
    ∀ svc, svc ≠ c.svc → Untouched svc u v
  own : ∀ svc u v, runAll vars cs t = some u → runAll vars (cs.filter (·.svc = svc)) t = some v →
    (svc :: initdLoc ∈ rc u ↔ svc :: initdLoc ∈ rc v)

def Separate (vars : Vars) (t : Tree) : Prop :=
  ∀ svc s svc' s', scriptAt vars t svc = some s → scriptAt vars t svc' = some s' → svc ≠ svc' →
    ¬ s.known <:+ s'.linkName

def LinksApart (vars : Vars) (t : Tree) : Prop :=
  ∀ svc s svc' m, scriptAt vars t svc = some s → svc ≠ svc' → m ∈ linksOf t svc' → ¬ s.known <:+ m

theorem Separate.only {vars : Vars} {t t' : Tree} (h : Separate vars t) (ho : OnlyLinks t t') :
    Separate vars t' := by
  intro svc s svc' s' hs hs' hne
  rw [ho.scriptAt vars] at hs hs'
  exact h svc s svc' s' hs hs' hne

theorem known_suffix_link (s : Script) : s.known <:+ s.linkName := List.suffix_append _ _

theorem Untouched.linksOf {t t' : Tree} {svc : Str} (h : Untouched svc t t') :
    linksOf t' svc = linksOf t svc := by
  ext m
  constructor
  · intro hm
    exact (linksOf_congr (h m (.inr hm)) svc).mp hm
  · intro hm
    exact (linksOf_congr (h m (.inl hm)) svc).mpr hm

section Effect

variable {vars : Vars} {t t' : Tree} {svc : Str} {s : Script} {a : Action}
  (he : Effect svc s a t t')
include he

theorem Effect.mem_linksOf (m : Str) : m ∈ linksOf t' svc ↔
    if enablesBy s a then m = s.linkName ∨ m ∈ linksOf t svc
    else m ∈ linksOf t svc ∧ ¬ (visible m = true ∧ s.known <:+ m) := by
  rw [Effect] at he
  split at he
  · rename_i ha
    rw [if_pos ha]
    by_cases hm : m = s.linkName
    · obtain ⟨x, hx, hb⟩ := he.placed
      subst hm
      exact ⟨fun _ => .inl rfl, fun _ => ⟨x, hx, hb⟩⟩
    · rw [linksOf_congr (he.kept m hm)]
      exact ⟨.inr, fun h => h.resolve_left hm⟩
  · rename_i ha
    rw [if_neg ha]
    by_cases hm : visible m = true ∧ s.known <:+ m
    · constructor
      · rintro ⟨x, hx, _⟩
        rw [he.gone m hm.1 hm.2] at hx
        simp at hx
      · exact fun h => absurd hm h.2
    · rw [linksOf_congr (he.kept m hm)]
      exact ⟨fun h => ⟨h, hm⟩, fun h => h.1⟩

theorem Effect.untouched (hs : scriptAt vars t svc = some s) (hl : LinksApart vars t) {svc' : Str}
    (hne : svc' ≠ svc) :
    Untouched svc' t t' := by
  intro m hm
  have hapart : m ∈ linksOf t svc' → ¬ s.known <:+ m := hl svc s svc' m hs hne.symm
  rw [Effect] at he
  split at he
  · apply he.kept
    rintro rfl
    rcases hm with hm | hm
    · exact hapart hm (known_suffix_link s)
    · exact hne (linksOf_owner hm he.placed)
  · by_cases hg : visible m = true ∧ s.known <:+ m
    · rcases hm with hm | ⟨x, hx, _⟩
      · exact absurd hg.2 (hapart hm)
      · rw [he.gone m hg.1 hg.2] at hx
        simp at hx
    · exact he.kept m hg

theorem LinksApart.step (hs : scriptAt vars t svc = some s) (hsep : Separate vars t)
    (hl : LinksApart vars t) :
    LinksApart vars t' := by
  intro svc₁ s₁ svc₂ m hs₁ hne hm
  rw [he.only.scriptAt vars] at hs₁
  by_cases h2 : svc₂ = svc
  · subst h2
    rw [he.mem_linksOf] at hm
    split at hm
    · rcases hm with rfl | hm
      · exact hsep svc₁ s₁ svc₂ s hs₁ hs hne
      · exact hl svc₁ s₁ svc₂ m hs₁ hne hm
    · exact hl svc₁ s₁ svc₂ m hs₁ hne hm.1
  · rw [(he.untouched hs hl h2).linksOf] at hm
    exact hl svc₁ s₁ svc₂ m hs₁ hne hm

end Effect

structure Ready (vars : Vars) (t : Tree) : Prop extends Tidy vars t where
  plain : AllPlain vars t
  separate : Separate vars t
  apart : LinksApart vars t

theorem Ready.step {vars : Vars} {t t' : Tree} (h : Ready vars t) {c : Command} {s : Script}
    (hs : scriptAt vars t c.svc = some s) (he : Effect c.svc s c.action t t') : Ready vars t' where
  toTidy := h.toTidy.step h.plain hs he
  plain := h.plain.only he.only
  separate := h.separate.only he.only
  apart := LinksApart.step he hs h.separate h.apart

theorem Ready.runAll {vars : Vars} {t : Tree} (h : Ready vars t) (cs : List Command)
    (hcs : ∀ c ∈ cs, (scriptAt vars t c.svc).isSome) :
    ∃ u, Services.runAll vars cs t = some u ∧ Ready vars u ∧ OnlyLinks t u := by
  induction cs generalizing t with
  | nil => exact ⟨t, rfl, h, .refl t⟩
  | cons c cs ih =>
      obtain ⟨s, hs⟩ := Option.isSome_iff_exists.mp (hcs c (by simp))
      obtain ⟨v, hv, he⟩ := run_effect h.toTidy h.plain hs
      obtain ⟨u, hu, hr, ho⟩ := ih (h.step hs he) fun d hd => by
        rw [he.only.scriptAt vars]
        exact hcs d (by simp [hd])
      exact ⟨u, by rw [Services.runAll, hv]; exact hu, hr, he.only.trans ho⟩

theorem own_links {vars : Vars} {svc : Str} {cs : List Command} {t w u v : Tree} (ht : Ready vars t)
    (hw : Ready vars w) (hscripts : ∀ d, scriptAt vars w d = scriptAt vars t d)
    (hlinks : linksOf w svc = linksOf t svc) (hcs : ∀ c ∈ cs, (scriptAt vars t c.svc).isSome)
    (hu : runAll vars cs t = some u) (hv : runAll vars (cs.filter (·.svc = svc)) w = some v) :
    linksOf v svc = linksOf u svc := by
  induction cs generalizing t w with
  | nil =>
      rw [← Option.some.inj hu, ← Option.some.inj hv, hlinks]
  | cons c cs ih =>
      obtain ⟨s, hs⟩ := Option.isSome_iff_exists.mp (hcs c (by simp))
      obtain ⟨t', ht', he⟩ := run_effect ht.toTidy ht.plain hs
      rw [runAll, ht', Option.bind_some] at hu
      have hrest : ∀ d ∈ cs, (scriptAt vars t' d.svc).isSome := fun d hd => by
        rw [he.only.scriptAt vars]
        exact hcs d (by simp [hd])
      by_cases hc : c.svc = svc
      · subst hc
        have hs' : scriptAt vars w c.svc = some s := by rw [hscripts, hs]
        obtain ⟨w', hw', he'⟩ := run_effect hw.toTidy hw.plain hs'
        rw [List.filter_cons_of_pos (by simp), runAll, hw', Option.bind_some] at hv
        refine ih (ht.step hs he) (hw.step hs' he') (fun d => ?_) ?_ hrest hu hv
        · rw [he.only.scriptAt vars, he'.only.scriptAt vars, hscripts]
        · ext m
          rw [he.mem_linksOf, he'.mem_linksOf, hlinks]
      · rw [List.filter_cons_of_neg (by simpa using hc)] at hv
        refine ih (ht.step hs he) hw (fun d => ?_) ?_ hrest hu hv
        · rw [he.only.scriptAt vars, hscripts]
        · rw [(he.untouched hs ht.apart (Ne.symm hc)).linksOf, hlinks]

theorem Ready.independent {vars : Vars} {t : Tree} (h : Ready vars t) {cs : List Command}
    (hcs : ∀ c ∈ cs, (scriptAt vars t c.svc).isSome) : Independent vars t cs := by
  obtain ⟨r, hr, hready, _⟩ := h.runAll cs hcs
  refine ⟨by simp [hr], ?_, ?_⟩
  · rintro pre c post u v rfl hu hv svc hne
    obtain ⟨u', hu', hready', ho⟩ := h.runAll pre fun d hd => hcs d (by simp [hd])
    obtain rfl := Option.some.inj (hu.symm.trans hu')
    obtain ⟨s, hs⟩ := Option.isSome_iff_exists.mp (hcs c (by simp))
    rw [← ho.scriptAt vars] at hs
    obtain ⟨v', hv', he⟩ := run_effect hready'.toTidy hready'.plain hs
    obtain rfl := Option.some.inj (hv.symm.trans hv')
    exact he.untouched hs hready'.apart hne
  · intro svc u v hu hv
    obtain rfl := Option.some.inj (hu.symm.trans hr)
    obtain ⟨v', hv', hreadyv, _⟩ := h.runAll (cs.filter (·.svc = svc)) fun d hd =>
      hcs d (List.mem_filter.mp hd).1
    obtain rfl := Option.some.inj (hv.symm.trans hv')
    rw [mem_rc hready.toTidy hready.plain, mem_rc hreadyv.toTidy hreadyv.plain,
      own_links h h (fun _ => rfl) rfl hcs hu hv]

/-- For init scripts that the utility can handle, the commands are independent
in every sequence exactly if no name ends the link name of another service. -/
theorem commands_independent (vars : Vars) (t : Tree) (h : Tidy vars t) (hp : AllPlain vars t)
    (hl : LinksApart vars t) :
    (∀ cs, (∀ c ∈ cs, (scriptAt vars t c.svc).isSome) → Independent vars t cs) ↔
    Separate vars t := by
  constructor
  · intro hall svc s svc' s' hs hs' hne hsuffix
    -- enable the one whose link ends in the name, then disable the other
    let first : Command := ⟨[], svc', .enable⟩
    let second : Command := ⟨[], svc, .disable⟩
    obtain ⟨u, hu, he⟩ := run_effect h hp (c := first) hs'
    have hs₂ : scriptAt vars u second.svc = some s := by rw [he.only.scriptAt vars]; exact hs
    obtain ⟨v, hv, he'⟩ :=
      run_effect (h.step hp (c := first) hs' he) (hp.only he.only) (c := second) hs₂
    have hind := hall [first, second] (by simp [first, second, hs, hs'])
    have hpre : runAll vars [first] t = some u := by rw [runAll, hu]; rfl
    have hkeep := hind.alone [first] second [] u v rfl hpre hv svc' hne.symm
    have hlink : s'.linkName ∈ linksOf u svc' := he.placed
    have hgone : v.node (s'.linkName :: enabledLoc) = none :=
      Disabled.gone he' _ (hp svc' s' hs').shown hsuffix
    rw [hkeep _ (.inl hlink)] at hgone
    obtain ⟨x, hx, _⟩ := hlink
    rw [hx] at hgone
    simp at hgone
  · exact fun hsep cs hcs => Ready.independent ⟨h, hp, hsep, hl⟩ hcs

theorem separate_of_children {vars : Vars} {t : Tree}
    (h : ∀ svc ∈ t.children initdLoc, ∀ s ∈ (scriptAt vars t svc).toList,
      ∀ svc' ∈ t.children initdLoc, ∀ s' ∈ (scriptAt vars t svc').toList, svc ≠ svc' →
    ¬ s.known <:+ s'.linkName) :
    Separate vars t :=
  fun svc s svc' s' hs hs' =>
    h svc (child_of_script hs) s (by simp [hs]) svc' (child_of_script hs') s' (by simp [hs'])

theorem linksApart_of_empty {vars : Vars} {t : Tree} (he : t.children enabledLoc = []) :
    LinksApart vars t := by
  rintro svc s svc' m _ _ ⟨x, hx, _⟩
  have hm := (t.mem_children enabledLoc m).mpr (by simp [hx])
  simp [he] at hm

theorem commands_independent_crond : Independent sampleVars (sampleRoot [crond, syslogd])
    [⟨[], crond.1, .enable⟩, ⟨[], syslogd.1, .disable⟩] := by
  have he : (sampleRoot [crond, syslogd]).children enabledLoc = [] := by decide +kernel
  have ht : Tidy sampleVars (sampleRoot [crond, syslogd]) := tidy_of_empty ⟨rfl, rfl⟩ he
  have hp : AllPlain sampleVars (sampleRoot [crond, syslogd]) :=
    allPlain_of_children (by decide +kernel)
  have hs : Separate sampleVars (sampleRoot [crond, syslogd]) :=
    separate_of_children (by decide +kernel)
  exact (commands_independent _ _ ht hp (linksApart_of_empty he)).mpr hs _ (by decide +kernel)

def httpd : Str × Str × Str := (['h', 't', 't', 'p', 'd'], ['h', 't', 't', 'p', 'd'], ['8', '0'])

def lighttpd : Str × Str × Str :=
  (['l', 'i', 'g', 'h', 't', 't', 'p', 'd'], ['l', 'i', 'g', 'h', 't', 't', 'p', 'd'], ['5', '0'])

/-- Disabling `httpd` removes the link of `lighttpd`. -/
theorem httpd_takes_lighttpd :
    ¬ Independent sampleVars (sampleRoot [httpd, lighttpd]) [⟨[], lighttpd.1, .enable⟩,
      ⟨[], httpd.1, .disable⟩] := by
  intro h
  let started (r : Option Tree) : Option Bool :=
    r.map fun t => decide (lighttpd.1 :: initdLoc ∈ rc t)
  have hboth : started (runAll sampleVars [⟨[], lighttpd.1, .enable⟩, ⟨[], httpd.1, .disable⟩]
    (sampleRoot [httpd, lighttpd])) = some false := by decide +kernel
  have hown :
    started (runAll sampleVars [⟨[], lighttpd.1, .enable⟩] (sampleRoot [httpd, lighttpd])) =
    some true := by decide +kernel
  obtain ⟨u, hu, hu'⟩ := Option.map_eq_some_iff.mp hboth
  obtain ⟨v, hv, hv'⟩ := Option.map_eq_some_iff.mp hown
  have hiff := h.own lighttpd.1 u v hu hv
  simp only [decide_eq_true_eq, decide_eq_false_iff_not] at hu' hv'
  exact hu' (hiff.mpr hv')

end Fidelix.Services
