import Fidelix.Pkgtools.Database
import Fidelix.Services.Service

namespace Fidelix.Services

open Text Files Pkgtools

structure Layout (t : Tree) : Prop where
  initd : t.node initdLoc = some .dir
  enabled : t.node enabledLoc = some .dir

theorem names_enabledir : names enabledir = [etcName, initdName, dotdot, rcdName, enabledName] := by
  decide

theorem names_svcdir : names svcdir = [etcName, initdName] := by decide

theorem names_rcEnabled : names rcEnabled = [etcName, rcdName, enabledName] := by decide

section Absolute

variable {t : Tree} {s : Str} (cwd : Loc) (h : s.head? = some '/')
include h

theorem place_absolute : t.place cwd s = t.place [] s := by
  simp [Tree.place, start, h]

theorem stat_absolute : t.stat cwd s = t.stat [] s := by
  simp [Tree.stat, start, h]

end Absolute

theorem head?_path {a : Str} (b : Str) (ha : a.head? = some '/') : (path a b).head? = some '/' := by
  cases a with
  | nil => simp at ha
  | cons c a => simpa [path] using ha

namespace Layout

variable {t : Tree} (h : Layout t)
include h

theorem etc : t.node [etcName] = some .dir :=
  t.parent initdName _ (by rw [← initdLoc, h.initd]; rfl)

theorem rcd : t.node [rcdName, etcName] = some .dir :=
  t.parent enabledName _ (by rw [← enabledLoc, h.enabled]; rfl)

theorem walks_enabledir (k : Nat) : t.Walks k [] (names enabledir) enabledLoc := by
  rw [names_enabledir]
  apply Tree.Walks.down (by decide) (by decide) h.etc
  apply Tree.Walks.down (by decide) (by decide) h.initd
  apply Tree.Walks.up
  apply Tree.Walks.down (by decide) (by decide) h.rcd
  exact .down (by decide) (by decide) h.enabled .done

theorem walks_svcdir (k : Nat) : t.Walks k [] (names svcdir) initdLoc := by
  rw [names_svcdir]
  apply Tree.Walks.down (by decide) (by decide) h.etc
  exact .down (by decide) (by decide) h.initd .done

theorem walks_rcEnabled (k : Nat) : t.Walks k [] (names rcEnabled) enabledLoc := by
  rw [names_rcEnabled]
  apply Tree.Walks.down (by decide) (by decide) h.etc
  apply Tree.Walks.down (by decide) (by decide) h.rcd
  exact .down (by decide) (by decide) h.enabled .done

end Layout

theorem place_in {t : Tree} {a n : Str} {d : Loc} (cwd : Loc) (ha : a.head? = some '/')
    (hw : t.Walks Tree.linkLimit [] (names a) d) (hd : t.node d = some .dir) (hn : ProperName n) :
    t.place cwd (path a n) = some (n :: d) := by
  rw [place_absolute cwd (head?_path n ha)]
  apply Tree.place_iff_walks.mpr
  have hc : comps (path a n) = names a ++ [n] :=
    by rw [comps_path a hn.1, comps_name ⟨hn.1, hn.2.1⟩]
  refine ⟨n, d, ?_, hn.2.2.1, hn.2.2.2, ?_, hd, rfl⟩
  · rw [hc, List.getLast?_concat]
  · rwa [hc, List.dropLast_concat]

section Place

variable {t : Tree} (h : Layout t) {n : Str} (hn : ProperName n) (cwd : Loc)
include h hn

theorem place_enabled : t.place cwd (path enabledir n) = some (n :: enabledLoc) :=
  place_in cwd rfl (h.walks_enabledir _) h.enabled hn

theorem place_script : t.place cwd (path svcdir n) = some (n :: initdLoc) :=
  place_in cwd rfl (h.walks_svcdir _) h.initd hn

theorem place_rcEnabled : t.place cwd (path rcEnabled n) = some (n :: enabledLoc) :=
  place_in cwd rfl (h.walks_rcEnabled _) h.enabled hn

end Place

def scriptAt (vars : Vars) (t : Tree) (svc : Str) : Option Script :=
  match t.node (svc :: initdLoc) with
  | some (.file true ls) => some (vars ls)
  | _ => none

theorem scriptAt_eq {vars : Vars} {t : Tree} {svc : Str} {s : Script}
    (h : scriptAt vars t svc = some s) :
    ∃ ls, t.node (svc :: initdLoc) = some (.file true ls) ∧ vars ls = s := by
  rw [scriptAt] at h
  split at h
  · exact ⟨_, ‹_›, Option.some.inj h⟩
  · simp at h

def WordName (n : Str) : Prop := ProperName n ∧ PlainText n

instance (n : Str) : Decidable (WordName n) := inferInstanceAs (Decidable (_ ∧ _))

theorem WordName.oneWord_path {n a : Str} (h : WordName n) (ha : OneWord a) : OneWord (path a n) :=
  Pkgtools.oneWord_path ha (h.2.oneWord h.1.1)

section Script

variable {vars : Vars} {t : Tree} (h : Layout t) {svc : Str} {s : Script} (hw : WordName svc)
  (hs : scriptAt vars t svc = some s) (cwd : Loc)
include h hw hs

theorem stat_script : t.stat cwd (path svcdir svc) = some (svc :: initdLoc) := by
  obtain ⟨ls, hn, _⟩ := scriptAt_eq hs
  rw [Tree.stat_of_place (place_script h hw.1 cwd)]
  exact Tree.deref_of_node hn (by simp)

theorem executable_script : t.isExecutable cwd (path svcdir svc) = true := by
  obtain ⟨ls, hn, _⟩ := scriptAt_eq hs
  simp [Tree.isExecutable, Tree.isExec, stat_script h hw hs cwd, hn]

theorem ask_script (field : Field) : ask vars t cwd svc field = answer t cwd s field := by
  obtain ⟨ls, hn, rfl⟩ := scriptAt_eq hs
  have hst := stat_script h hw hs cwd
  have hx : t.isExec cwd (path svcdir svc) = true := by simp [Tree.isExec, hst, hn]
  have ht : t.text cwd (path svcdir svc) = some ls := by simp [Tree.text, hst, hn]
  rw [ask, expand_oneWord _ _ (hw.oneWord_path (by decide))]
  simp only [hx, ht, if_true, Option.getD_some]

theorem get_script (hq : evalSafe svc = true) (field : Field) :
    get vars t cwd svc field = answer t cwd s field := by
  rw [get, if_pos hq, ask_script h hw hs]

end Script

def visible (n : Str) : Bool := n.head? != some '.'

/-- The names that `$ENABLEDIR/*name` selects. -/
def selected (t : Tree) (name : Str) : List Str :=
  (t.children enabledLoc).filter fun m => visible m && decide (name <:+ m)

theorem mem_selected {t : Tree} {name m : Str} :
    m ∈ selected t name ↔ (t.node (m :: enabledLoc)).isSome ∧ visible m = true ∧ name <:+ m := by
  simp [selected, Tree.mem_children]

theorem globNames_star {t : Tree} (h : Layout t) (cwd : Loc) {name : Str} (hn : PlainText name) :
    globNames t cwd (enabledir ++ ['/']) ('*' :: name) = selected t name := by
  have hst : t.stat cwd (enabledir ++ ['/']) = some enabledLoc := by
    rw [stat_absolute cwd rfl, Tree.stat, if_neg (by decide), start_nil]
    have hc : comps (enabledir ++ ['/']) = names enabledir ++ [dot] := by decide
    rw [hc, Tree.statAt, List.getLast?_concat]
    simp only [true_or, if_true]
    apply Tree.Walks.eval
    have hw := h.walks_enabledir Tree.linkLimit
    rw [names_enabledir] at hw ⊢
    apply Tree.Walks.down (by decide) (by decide) h.etc
    apply Tree.Walks.down (by decide) (by decide) h.initd
    apply Tree.Walks.up
    apply Tree.Walks.down (by decide) (by decide) h.rcd
    exact .down (by decide) (by decide) h.enabled (.stay .done)
  rw [globNames, if_neg (by decide), hst]
  simp only [selected]
  apply List.filter_congr
  intro m _
  have hf : fnmatch ('*' :: name) m = decide (name <:+ m) := by
    rw [Bool.eq_iff_iff, decide_eq_true_eq]
    exact fnmatch_star hn m
  simp [hf, visible]

theorem expand_star {t : Tree} (h : Layout t) (cwd : Loc) {name : Str} (hn : PlainText name) :
    expand t cwd (path enabledir ('*' :: name)) =
      if selected t name = [] then [path enabledir ('*' :: name)]
      else (selected t name).map (path enabledir) := by
  have hd : OneWord enabledir := by decide
  have hx := expand_pattern t cwd hd.2 (g := '*' :: name) ?_ ?_ (by simp [globChar])
  · rwa [globNames_star h cwd hn] at hx
  · intro c hc
    rcases List.mem_cons.mp hc with rfl | hc
    · decide
    · exact (hn c hc).1
  · intro hc
    rcases List.mem_cons.mp hc with hc | hc
    · exact absurd hc (by decide)
    · exact hn.slash hc

structure Entries (t : Tree) : Prop where
  proper : ∀ m, (t.node (m :: enabledLoc)).isSome → ProperName m
  noDir : ∀ m, t.node (m :: enabledLoc) ≠ some .dir

theorem Entries.less {t t' : Tree} (h : Entries t) (hw : t'.Within t) : Entries t' where
  proper m hm := by
    obtain ⟨x, hx⟩ := Option.isSome_iff_exists.mp hm
    exact h.proper m (by simp [hw _ _ hx])
  noDir m hm := h.noDir m (hw _ _ hm)

def OnlyLinks (t t' : Tree) : Prop := ∀ q, (∀ m, q ≠ m :: enabledLoc) → t'.node q = t.node q

theorem OnlyLinks.refl (t : Tree) : OnlyLinks t t := fun _ _ => rfl

theorem OnlyLinks.trans {t u v : Tree} (h : OnlyLinks t u) (h' : OnlyLinks u v) : OnlyLinks t v :=
  fun q hq => (h' q hq).trans (h q hq)

theorem OnlyLinks.layout {t t' : Tree} (h : OnlyLinks t t') (hl : Layout t) : Layout t' where
  initd := (h _ (by simp [initdLoc, enabledLoc])).trans hl.initd
  enabled := (h _ (by simp [enabledLoc])).trans hl.enabled

theorem OnlyLinks.scriptAt {t t' : Tree} (h : OnlyLinks t t') (vars : Vars) (svc : Str) :
    scriptAt vars t' svc = scriptAt vars t svc := by
  rw [Services.scriptAt, Services.scriptAt, h _ (by simp [initdLoc, enabledLoc])]

theorem rm_enabled {t : Tree} (h : Layout t) (he : Entries t) (cwd : Loc) {m : Str}
    (hm : ProperName m) (q : Loc) :
    (t.rm cwd (path enabledir m)).node q = if q = m :: enabledLoc then none else t.node q := by
  rw [Tree.rm, place_enabled h hm cwd]
  by_cases hs : (t.node (m :: enabledLoc)).isSome
  · obtain ⟨u, hu⟩ := Tree.unlink_isSome hs (he.noDir m)
    simp only [hu, Option.getD_some, Tree.unlink_node hu q]
  · have hu : t.unlink (m :: enabledLoc) = none := by
      cases hu : t.unlink (m :: enabledLoc) with
      | none => rfl
      | some u => exact absurd (Tree.unlink_pre hu).1 hs
    simp only [hu, Option.getD_none]
    by_cases hq : q = m :: enabledLoc
    · rw [if_pos hq, hq]
      simpa using hs
    · rw [if_neg hq]

theorem rm_fold {t : Tree} (h : Layout t) (he : Entries t) (cwd : Loc) {ms : List Str}
    (hm : ∀ m ∈ ms, ProperName m) (q : Loc) :
    ((ms.map (path enabledir)).foldl (fun t w => t.rm cwd w) t).node q =
      if ∃ m ∈ ms, q = m :: enabledLoc then none else t.node q := by
  induction ms generalizing t with
  | nil => simp
  | cons m ms ih =>
      have hr := rm_enabled h he cwd (hm m (by simp))
      have ho : OnlyLinks t (t.rm cwd (path enabledir m)) := fun q hq => by rw [hr q, if_neg (hq m)]
      have he' := he.less (Tree.within_of_erase hr)
      rw [List.map_cons, List.foldl_cons, ih (ho.layout h) he' fun n hn =>
        hm n (by simp [hn]), hr q]
      by_cases hq : q = m :: enabledLoc
      · simp [hq]
      · simp [hq]

def Script.known (s : Script) : Str := if s.accepted then echoed s.name else []

def Script.priority (s : Script) : Str :=
  if s.accepted then echoed s.hasDefaults.startPriority else []

def Script.linkName (s : Script) : Str := s.priority ++ s.known

def Script.byDefault (s : Script) : Bool := s.accepted && echoed s.hasDefaults.defaultStart == yes

def Belongs (svc : Str) : Node → Prop
  | .link g => g.levels = some 2 ∧ g.names = [initdName, svc]
  | _ => False

theorem Belongs.inj {svc svc' : Str} {x : Node} (h : Belongs svc x) (h' : Belongs svc' x) :
    svc = svc' := by
  cases x with
  | link g => simpa [h.2] using h'.2
  | _ => exact h.elim

theorem targetOf_script {svc : Str} (hw : WordName svc) :
    ∃ g, Tree.targetOf (path fromEnabled svc) = some g ∧ Belongs svc (.link g) := by
  have hn : names (path fromEnabled svc) = [dotdot, dotdot, initdName, svc] := by
    rw [path, names_append_slash, names_of_not_mem svc hw.1.1 hw.1.2.1]
    rfl
  have hne : initdName ≠ dotdot := by decide
  have hni : initdName ≠ dot := by decide
  have hdd : dotdot ≠ dot := by decide
  have hhead : (path fromEnabled svc).head? ≠ some '/' := by simp [path, fromEnabled, dotdot]
  have hf : (names (path fromEnabled svc)).filter (· ≠ dot) = [dotdot, dotdot, initdName, svc] := by
    simp [hn, hni, hdd, hw.1.2.2.1]
  refine ⟨⟨some 2, [initdName, svc], by simp [hne.symm, Ne.symm hw.1.2.2.2]⟩, ?_, rfl, rfl⟩
  have hb : (initdName == dotdot) = false := by decide
  simp only [Tree.targetOf, hf, hhead, if_false]
  simp [List.dropWhile, List.takeWhile, hb, hne.symm, Ne.symm hw.1.2.2.2]

/-- Every link that ends in `name` goes, no other does. -/
structure Disabled (name : Str) (t t' : Tree) : Prop where
  gone : ∀ m, visible m = true → name <:+ m → t'.node (m :: enabledLoc) = none
  kept : ∀ m, ¬ (visible m = true ∧ name <:+ m) →
    t'.node (m :: enabledLoc) = t.node (m :: enabledLoc)
  only : OnlyLinks t t'

structure Enabled (svc link : Str) (t t' : Tree) : Prop where
  placed : ∃ x, t'.node (link :: enabledLoc) = some x ∧ Belongs svc x
  kept : ∀ m, m ≠ link → t'.node (m :: enabledLoc) = t.node (m :: enabledLoc)
  only : OnlyLinks t t'

section Effects

variable {vars : Vars} {t : Tree} (h : Layout t) (he : Entries t) {svc : Str} {s : Script}
  (hw : WordName svc) (hs : scriptAt vars t svc = some s) (hq : evalSafe svc = true) (cwd : Loc)
include h hw hs hq

theorem get_name : get vars t cwd svc .name = s.known := get_script h hw hs cwd hq .name

theorem get_priority : get vars t cwd svc .start_priority = s.priority :=
  get_script h hw hs cwd hq .start_priority

theorem enables_iff (a : Action) : enables vars t cwd svc a = true ↔
    a = .enable ∨ a = .default ∧ s.byDefault = true := by
  have hd : get vars t cwd svc .default_start = answer t cwd s .default_start :=
    get_script h hw hs cwd hq _
  cases a with
  | enable => simp [enables]
  | disable => simp [enables]
  | default =>
      simp only [enables, hd, answer, Script.byDefault]
      cases s.accepted <;> simp [yes, cc_get]

omit h hw hs hq in
theorem star_absent {name : Str} (hn : ProperName name) (hnil : selected t name = []) :
    ProperName ('*' :: name) ∧ t.node (('*' :: name) :: enabledLoc) = none := by
  have hnone : t.node (('*' :: name) :: enabledLoc) = none := by
    rw [← Option.not_isSome_iff_eq_none]
    intro hsome
    have hm : '*' :: name ∈ selected t name :=
      mem_selected.mpr ⟨hsome, by simp [visible], List.suffix_cons _ _⟩
    simp [hnil] at hm
  exact ⟨⟨by simp, by simpa using hn.2.1, by simp [dot], by simp [dotdot]⟩, hnone⟩

include he

theorem onBoot_iff (hk : WordName s.known) :
    onBoot vars t cwd svc = true ↔ ∃ m, m ∈ selected t s.known := by
  rw [onBoot, get_name h hw hs hq cwd, expand_star h cwd hk.2]
  by_cases hnil : selected t s.known = []
  · obtain ⟨hstar, hnone⟩ := star_absent hk.1 hnil
    simp [hnil, place_enabled h hstar cwd, hnone]
  · rw [if_neg hnil]
    constructor
    · exact fun _ => List.exists_mem_of_ne_nil _ hnil
    · intro _
      rw [List.all_map, List.all_eq_true]
      intro m hm
      have hsome := (mem_selected.mp hm).1
      simp [place_enabled h (he.proper m hsome) cwd, hsome]

theorem svc_disable_disabled (hk : WordName s.known) :
    Disabled s.known t (svc_disable vars t cwd svc) := by
  have hname := get_name h hw hs hq cwd
  have hfold : ∀ q, (svc_disable vars t cwd svc).node q =
      if ∃ m ∈ selected t s.known, q = m :: enabledLoc then none else t.node q := by
    intro q
    simp only [svc_disable, hname, expand_star h cwd hk.2]
    split
    · rename_i hnil
      obtain ⟨hstar, hnone⟩ := star_absent hk.1 hnil
      simp only [List.foldl_cons, List.foldl_nil, rm_enabled h he cwd hstar, hnil,
        List.not_mem_nil, false_and,
        exists_false, if_false]
      split
      · rw [‹q = _›, hnone]
      · rfl
    · exact rm_fold h he cwd (fun m hm => he.proper m (mem_selected.mp hm).1) q
  refine ⟨fun m hv hm => ?_, fun m hm => ?_, fun q hq => ?_⟩
  · rw [hfold]
    split
    · rfl
    · rename_i hno
      rw [← Option.not_isSome_iff_eq_none]
      intro hsome
      exact hno ⟨m, mem_selected.mpr ⟨hsome, hv, hm⟩, rfl⟩
  · rw [hfold, if_neg]
    rintro ⟨n, hn, hq⟩
    rw [List.cons.injEq] at hq
    rw [hq.1] at hm
    exact hm (mem_selected.mp hn).2
  · rw [hfold, if_neg]
    rintro ⟨n, _, rfl⟩
    exact hq n rfl

theorem svc_enable_enabled (hl : ProperName s.linkName)
    (hdir : t.leadsToDir (s.linkName :: enabledLoc) = false) :
    ∃ t', svc_enable vars t cwd svc = some t' ∧ Enabled svc s.linkName t t' := by
  have hname := get_name h hw hs hq cwd
  have hprio := get_priority h hw hs hq cwd
  have hword : OneWord (path fromEnabled svc) := hw.oneWord_path (by decide)
  have hplace := place_enabled h hl cwd
  have hisdir : t.isDir cwd (path enabledir s.linkName) = false := by
    rw [Tree.isDir_eq_leadsToDir hplace, hdir]
  obtain ⟨g, hg, hb⟩ := targetOf_script hw
  obtain ⟨t', ht⟩ := Tree.put_isSome (.link g) h.enabled (he.noDir s.linkName)
  refine ⟨t', ?_, ⟨.link g, by simp [Tree.put_node ht], hb⟩, fun m hm => ?_, fun q hq => ?_⟩
  · simp only [svc_enable, hname, hprio, expand_oneWord _ _ hword, Tree.lnSf]
    rw [← Script.linkName, hisdir]
    simp [hg, hplace, ht]
  · rw [Tree.put_node ht, if_neg (by simpa using hm)]
  · rw [Tree.put_node ht, if_neg (hq _)]

end Effects

end Fidelix.Services
