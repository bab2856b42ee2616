import Fidelix.Boot.Mounts

namespace Fidelix.Boot

open Text Files Services

def nodevOption : Str := ['n', 'o', 'd', 'e', 'v']

def nosuidOption : Str := ['n', 'o', 's', 'u', 'i', 'd']

def noexecOption : Str := ['n', 'o', 'e', 'x', 'e', 'c']

def optionsOf (opts : Str) : List Str :=
  words (opts.map fun c => if c = ',' ∨ c = '(' ∨ c = ')' then ' ' else c)

def elements (sys : System) (mode : Mode) (dir opts : Str) : List Str :=
  (get_options sys mode [dir, opts]).splitOn ','

structure Hardens (sys : System) (mode : Mode) (dir opts : Str) : Prop where
  nosuid : mode.secure = true → ¬ (dir = ['/'] ∨ Below usrDir dir ∨ Below optDir dir) →
    nosuidOption ∈ elements sys mode dir opts
  nodev : mode.secure = true → ¬ (Below usrLocal dir ∨ Below optDir dir) →
    nodevOption ∈ elements sys mode dir opts
  noexec : mode.secure = true → Below srvDir dir → noexecOption ∈ elements sys mode dir opts
  kept : ro ∈ elements sys mode dir opts ↔ ro ∈ optionsOf opts
  listed : ∀ o ∈ elements sys mode dir opts, o ≠ []

/-- No directory has one of the exempt ones as the beginning of its name, and no option
is a pattern for a file that is called `ro`. -/
structure Recognised (sys : System) (mode : Mode) (dir opts : Str) : Prop where
  siblings : mode.secure = true → ∀ base ∈ [usrLocal, optDir, usrDir], base <+: dir → Below base dir
  patterns : ∀ w ∈ optionsOf opts, w.any globChar = true → ro ∈ globWord sys.tree sys.cwd w →
    ro ∈ optionsOf opts

def hardening (dir : Str) : List Str :=
  if usrLocal.isPrefixOf dir then []
  else if optDir.isPrefixOf dir then []
  else if dir = ['/'] then [nodevOption]
  else if usrDir.isPrefixOf dir then [nodevOption]
  else if srvDir.isPrefixOf dir then [nosuidOption, noexecOption, nodevOption]
  else [nosuidOption, nodevOption]

def keptOptions (sys : System) (opts : Str) : List Str :=
  (sys.args ((echoed opts).map fun c => if c = ',' ∨ c = '(' ∨ c = ')' then ' '
    else c)).filter (· = ro)

def chosen (sys : System) (mode : Mode) (dir opts : Str) : List Str :=
  keptOptions sys opts ++ if mode.secure then hardening dir else []

theorem hardened_eq (dir : Str) : hardened dir = (hardening dir).flatMap (',' :: ·) := by
  unfold hardened hardening
  split
  · rfl
  · split
    · rfl
    · split
      · rfl
      · split
        · rfl
        · split <;> rfl

theorem lopts_eq (sys : System) (opts : Str) :
    lopts sys opts = (keptOptions sys opts).flatMap (',' :: ·) := by
  rw [lopts, keptOptions]
  induction sys.args ((echoed opts).map fun c => if c = ',' ∨ c = '(' ∨ c = ')'
    then ' ' else c) with
  | nil => rfl
  | cons w ws ih =>
      rw [List.flatMap_cons, ih, List.filter_cons]
      by_cases hw : w = ro
      · simp [hw]
      · simp [hw]

theorem commas_eq (o : Str) (os : List Str) :
    (o :: os).flatMap (',' :: ·) = ',' :: [','].intercalate (o :: os) := by
  induction os generalizing o with
  | nil => simp [List.intercalate]
  | cons p os ih =>
      rw [List.flatMap_cons, ih p]
      simp [List.intercalate]

theorem hardening_mem {dir o : Str} (h : o ∈ hardening dir) :
    o = nodevOption ∨ o = nosuidOption ∨ o = noexecOption := by
  unfold hardening at h
  split at h
  · cases h
  · split at h
    · cases h
    · split at h
      · exact .inl (List.mem_singleton.mp h)
      · split at h
        · exact .inl (List.mem_singleton.mp h)
        · split at h
          · simp only [List.mem_cons, List.not_mem_nil, or_false] at h
            tauto
          · simp only [List.mem_cons, List.not_mem_nil, or_false] at h
            tauto

theorem ro_not_hardening (dir : Str) : ro ∉ hardening dir := by
  intro h
  rcases hardening_mem h with h | h | h <;> exact absurd h (by decide)

theorem chosen_options {sys : System} {mode : Mode} {dir opts : Str} :
    ∀ o ∈ chosen sys mode dir opts, o ≠ [] ∧ ',' ∉ o := by
  intro o ho
  rw [chosen, List.mem_append] at ho
  rcases ho with ho | ho
  · have hro : o = ro := by simpa [keptOptions] using (List.mem_filter.mp ho).2
    rw [hro]
    decide
  · split at ho
    · rcases hardening_mem ho with rfl | rfl | rfl <;> decide
    · cases ho

theorem get_options_eq (sys : System) (mode : Mode) (dir opts : Str) :
    get_options sys mode [dir, opts] =
    [','].intercalate (if chosen sys mode dir opts = [] then [defaults]
      else chosen sys mode dir opts) := by
  have hkept : lopts sys opts ++ (if mode.secure then hardened dir else []) =
      (chosen sys mode dir opts).flatMap (',' :: ·) := by
    rw [chosen, List.flatMap_append, lopts_eq, hardened_eq]
    congr 1
    split <;> rfl
  have hall : get_options sys mode [dir, opts] =
      (let all := orElse ((chosen sys mode dir opts).flatMap (',' :: ·)) defaults
       if all.head? = some ',' then all.tail else all) := by
    rw [← hkept]
    rfl
  rw [hall]
  cases hc : chosen sys mode dir opts with
  | nil => rfl
  | cons o os =>
      rw [commas_eq, orElse, if_neg (List.cons_ne_nil _ _), if_neg (List.cons_ne_nil _ _)]
      rfl

theorem elements_eq (sys : System) (mode : Mode) (dir opts : Str) : elements sys mode dir opts =
    if chosen sys mode dir opts = [] then [defaults] else chosen sys mode dir opts := by
  rw [elements, get_options_eq]
  apply List.splitOn_intercalate
  · intro o ho
    split at ho
    · rw [List.mem_singleton.mp ho]
      decide
    · exact (chosen_options o ho).2
  · split
    · simp
    · assumption

theorem mem_elements {sys : System} {mode : Mode} {dir opts o : Str} (ho : o ≠ defaults) :
    o ∈ elements sys mode dir opts ↔ o ∈ chosen sys mode dir opts := by
  rw [elements_eq]
  split
  · rename_i h
    simp [h, ho]
  · rfl

theorem isPrefixOf_iff (base dir : Str) : base.isPrefixOf dir = true ↔ base <+: dir :=
  List.isPrefixOf_iff_prefix

theorem Below.prefix {base dir : Str} (h : Below base dir) : base <+: dir := by
  rcases h with rfl | h
  · exact List.prefix_refl dir
  · exact (List.prefix_append base ['/']).trans h

theorem mem_keptOptions (sys : System) (opts : Str) :
    ro ∈ keptOptions sys opts ↔ ∃ w ∈ optionsOf (echoed opts),
      ro ∈ globWord sys.tree sys.cwd w := by
  rw [keptOptions, List.mem_filter, System.args, expand, List.mem_flatMap]
  simp only [decide_true, and_true]
  rfl

theorem optionsOf_echoed (opts : Str) : optionsOf (echoed opts) = optionsOf opts ∨
    optionsOf (echoed opts) = [] ∧ optionsOf opts = [opts] ∧ '-' ∈ opts ∧
    opts.any globChar = false := by
  by_cases he : echoed opts = opts
  · exact .inl (by rw [he])
  · have hform : ∃ c cs, opts = '-' :: c :: cs ∧
        ((c :: cs).all fun c => c == 'n' || c == 'e' || c == 'E') = true ∧ echoed opts = [] := by
      unfold echoed at he ⊢
      split at he
      · rename_i c cs
        split at he
        · rename_i hall
          exact ⟨c, cs, rfl, hall, by rw [if_pos hall]⟩
        · exact absurd rfl he
      · exact absurd rfl he
    obtain ⟨c, cs, rfl, hall, h0⟩ := hform
    have hchars : ∀ d ∈ '-' :: c :: cs, d = '-' ∨ d = 'n' ∨ d = 'e' ∨ d = 'E' := by
      intro d hd
      rcases List.mem_cons.mp hd with rfl | hd
      · exact .inl rfl
      · have := List.all_eq_true.mp hall d hd
        simp only [Bool.or_eq_true, beq_iff_eq] at this
        tauto
    have hsame : ('-' :: c :: cs).map (fun c => if c = ',' ∨ c = '(' ∨ c = ')' then ' ' else c) =
      '-' :: c :: cs := by
      refine (List.map_congr_left fun d hd => ?_).trans (List.map_id _)
      rcases hchars d hd with rfl | rfl | rfl | rfl <;> rfl
    refine .inr ⟨by rw [h0]; rfl, ?_, List.mem_cons_self, ?_⟩
    · rw [optionsOf, hsame]
      apply words_eq_singleton _ (List.cons_ne_nil _ _)
      intro d hd
      rcases hchars d hd with rfl | rfl | rfl | rfl <;> rfl
    · rw [List.any_eq_false]
      intro d hd
      rcases hchars d hd with rfl | rfl | rfl | rfl <;> decide

theorem ro_kept (sys : System) (opts : Str) : ro ∈ keptOptions sys opts ↔ ro ∈ optionsOf opts ∨
    ∃ w ∈ optionsOf opts, w.any globChar = true ∧ ro ∈ globWord sys.tree sys.cwd w := by
  rw [mem_keptOptions]
  have hplain : ∀ w : Str, w.any globChar = false → globWord sys.tree sys.cwd w = [w] := by
    intro w hw
    simp [globWord, hw]
  rcases optionsOf_echoed opts with he | ⟨he, ho, hdash, hglob⟩
  · rw [he]
    constructor
    · rintro ⟨w, hw, hro⟩
      cases hg : w.any globChar with
      | false =>
          rw [hplain w hg, List.mem_singleton] at hro
          exact .inl (hro ▸ hw)
      | true => exact .inr ⟨w, hw, hg, hro⟩
    · rintro (hro | ⟨w, hw, _, hro⟩)
      · exact ⟨ro, hro, by rw [hplain ro (by decide)]; exact List.mem_cons_self⟩
      · exact ⟨w, hw, hro⟩
  · rw [he, ho]
    constructor
    · rintro ⟨w, hw, _⟩
      cases hw
    · rintro (hro | ⟨w, hw, hg, _⟩)
      · rw [← List.mem_singleton.mp hro] at hdash
        exact absurd hdash (by decide)
      · rw [List.mem_singleton.mp hw, hglob] at hg
        cases hg

theorem ro_elements (sys : System) (mode : Mode) (dir opts : Str) :
    ro ∈ elements sys mode dir opts ↔ ro ∈ keptOptions sys opts := by
  rw [mem_elements (by decide), chosen, List.mem_append]
  constructor
  · rintro (h | h)
    · exact h
    · split at h
      · exact absurd h (ro_not_hardening dir)
      · cases h
  · exact .inl

theorem secure_elements {sys : System} {mode : Mode} (hs : mode.secure = true) (dir opts : Str)
    {o : Str} (hd : o ≠ defaults) (ho : o ≠ ro) :
    o ∈ elements sys mode dir opts ↔ o ∈ hardening dir := by
  rw [mem_elements hd, chosen, List.mem_append, if_pos hs]
  constructor
  · rintro (h | h)
    · exact absurd (by simpa [keptOptions] using (List.mem_filter.mp h).2) ho
    · exact h
  · exact .inr

theorem not_both {a b dir : Str} (ha : a <+: dir) (hb : b <+: dir) (h : ¬ a <+: b)
    (h' : ¬ b <+: a) :
    False := by
  rcases List.prefix_or_prefix_of_prefix ha hb with hp | hp
  · exact h hp
  · exact h' hp

theorem below_usr {dir : Str} (h : usrLocal <+: dir) : Below usrDir dir :=
  .inr ((by decide : usrDir ++ ['/'] <+: usrLocal).trans h)

theorem ne_root {base dir : Str} (h : base <+: dir) (hb : 1 < base.length) : dir ≠ ['/'] := by
  rintro rfl
  exact absurd h.length_le (by simpa using hb)

theorem hardening_local {dir : Str} (h : usrLocal <+: dir) : hardening dir = [] := by
  rw [hardening, if_pos ((isPrefixOf_iff _ _).mpr h)]

theorem hardening_opt {dir : Str} (h : optDir <+: dir) : hardening dir = [] := by
  rw [hardening, if_pos ((isPrefixOf_iff _ _).mpr h), ite_self]

theorem hardening_usr {dir : Str} (hl : ¬ usrLocal <+: dir) (h : usrDir <+: dir) :
    hardening dir = [nodevOption] := by
  have ho : ¬ optDir <+: dir := fun ho => not_both h ho (by decide) (by decide)
  rw [hardening, if_neg (mt (isPrefixOf_iff _ _).mp hl), if_neg (mt (isPrefixOf_iff _ _).mp ho),
    if_neg (ne_root h (by decide)), if_pos ((isPrefixOf_iff _ _).mpr h)]

theorem hardening_other {dir : Str} (hu : ¬ usrDir <+: dir) (ho : ¬ optDir <+: dir)
    (hr : dir ≠ ['/']) :
    nosuidOption ∈ hardening dir ∧ nodevOption ∈ hardening dir ∧
    (srvDir <+: dir → noexecOption ∈ hardening dir) := by
  have hl : ¬ usrLocal <+: dir := fun hl => hu ((by decide : usrDir <+: usrLocal).trans hl)
  rw [hardening, if_neg (mt (isPrefixOf_iff _ _).mp hl),
    if_neg (mt (isPrefixOf_iff _ _).mp ho), if_neg hr,
    if_neg (mt (isPrefixOf_iff _ _).mp hu)]
  by_cases hs : srvDir <+: dir
  · rw [if_pos ((isPrefixOf_iff _ _).mpr hs)]
    simp
  · rw [if_neg (mt (isPrefixOf_iff _ _).mp hs)]
    simp [hs]

section

variable {sys : System} {mode : Mode} {dir opts : Str}

theorem Recognised.hardens (h : Recognised sys mode dir opts) : Hardens sys mode dir opts where
  nosuid hs hn := by
    rw [not_or, not_or] at hn
    rw [secure_elements hs dir opts (by decide) (by decide)]
    exact (hardening_other (fun hu => hn.2.1 (h.siblings hs _ (by simp) hu))
      (fun ho => hn.2.2 (h.siblings hs _ (by simp) ho)) hn.1).1
  nodev hs hn := by
    rw [not_or] at hn
    have hl : ¬ usrLocal <+: dir := fun hl => hn.1 (h.siblings hs _ (by simp) hl)
    have ho : ¬ optDir <+: dir := fun ho => hn.2 (h.siblings hs _ (by simp) ho)
    rw [secure_elements hs dir opts (by decide) (by decide)]
    by_cases hu : usrDir <+: dir
    · rw [hardening_usr hl hu]
      exact List.mem_cons_self
    · by_cases hr : dir = ['/']
      · rw [hr]
        decide
      · exact (hardening_other hu ho hr).2.1
  noexec hs hb := by
    have hp := hb.prefix
    rw [secure_elements hs dir opts (by decide) (by decide)]
    exact (hardening_other (fun hu => not_both hp hu (by decide) (by decide))
      (fun ho => not_both hp ho (by decide) (by decide)) (ne_root hp (by decide))).2.2 hp
  kept := by
    rw [ro_elements, ro_kept]
    constructor
    · rintro (hro | ⟨w, hw, hg, hro⟩)
      · exact hro
      · exact h.patterns w hw hg hro
    · exact .inl
  listed o ho := by
    rw [elements_eq] at ho
    split at ho
    · rw [List.mem_singleton.mp ho]
      decide
    · exact (chosen_options o ho).1

theorem Hardens.recognised (h : Hardens sys mode dir opts) : Recognised sys mode dir opts where
  siblings hs base hb hp := by
    by_contra hn
    simp only [List.mem_cons, List.not_mem_nil, or_false] at hb
    rcases hb with rfl | rfl | rfl
    · have ho : ¬ Below optDir dir := fun ho => not_both hp ho.prefix (by decide) (by decide)
      have hmem := h.nodev hs (not_or.mpr ⟨hn, ho⟩)
      rw [secure_elements hs dir opts (by decide) (by decide), hardening_local hp] at hmem
      cases hmem
    · have hu : ¬ Below usrDir dir := fun hu => not_both hp hu.prefix (by decide) (by decide)
      have hmem := h.nosuid hs (not_or.mpr ⟨ne_root hp (by decide), not_or.mpr ⟨hu, hn⟩⟩)
      rw [secure_elements hs dir opts (by decide) (by decide), hardening_opt hp] at hmem
      cases hmem
    · have ho : ¬ Below optDir dir := fun ho => not_both hp ho.prefix (by decide) (by decide)
      have hmem := h.nosuid hs (not_or.mpr ⟨ne_root hp (by decide), not_or.mpr ⟨hn, ho⟩⟩)
      rw [secure_elements hs dir opts (by decide) (by decide),
        hardening_usr (fun hl => hn (below_usr hl)) hp] at hmem
      exact absurd (List.mem_singleton.mp hmem) (by decide)
  patterns w hw hg hro := by
    have hkept : ro ∈ keptOptions sys opts := (ro_kept sys opts).mpr (.inr ⟨w, hw, hg, hro⟩)
    exact h.kept.mp ((ro_elements sys mode dir opts).mpr hkept)

/-- Only the documented directories are exempt exactly when no sibling of theirs is mounted. -/
theorem hardens_iff (sys : System) (mode : Mode) (dir opts : Str) :
    Hardens sys mode dir opts ↔ Recognised sys mode dir opts :=
  ⟨Hardens.recognised, Recognised.hardens⟩

end

def optSibling : Str := ['/', 'o', 'p', 't', '2']

/-- `/opt2` gets the defaults. -/
theorem not_hardens_sibling : ¬ ∀ sys mode dir opts, Hardens sys mode dir opts := by
  intro h
  have hmem := (h (mounted [] []) ⟨true, true⟩ optSibling ['r', 'w']).nosuid rfl (by decide)
  exact absurd hmem (by decide +kernel)

end Fidelix.Boot
