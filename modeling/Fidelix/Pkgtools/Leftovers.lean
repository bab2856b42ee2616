import Fidelix.Pkgtools.Lists
import Fidelix.Pkgtools.Ownership

namespace Fidelix.Pkgtools

open Text Files

def Installed (t : Tree) (n : Str) : Prop := contentsLoc [] n ∈ lists t

instance (t : Tree) (n : Str) : Decidable (Installed t n) := inferInstanceAs (Decidable (_ ∈ _))

def OnlyListed (t : Tree) (pkg f : Str) : Prop :=
  f ∈ linesOf t pkg ∧ ∀ n, Installed t n → n ≠ pkg → f ∉ linesOf t n

def FlatEntries (t : Tree) : Prop :=
  ∀ n, Installed t n → ∀ m, t.node (m :: entryLoc [] n) ≠ some .dir

structure Removes (t t' : Tree) (pkg : Str) : Prop where
  gone : ∀ f p x, OnlyListed t pkg f → t.place [] f = some p → t.node p = some x → x ≠ .dir →
    t'.node p = none
  kept : ∀ p x, t.node p = some x → x ≠ .dir → ¬ entryLoc [] pkg <:+ p →
    (∀ f ∈ linesOf t pkg, t.place [] f ≠ some p) → t'.node p = some x
  entry : ∀ q, entryLoc [] pkg <:+ q → t'.node q = none
  others : ∀ n, Installed t n → n ≠ pkg → ∀ q, entryLoc [] n <:+ q → t'.node q = t.node q

/-- The lines of the package select what they should: each file that it lists alone is
cleared or in its entry, and what is cleared is what it lists and in no other entry. -/
structure Selective (t : Tree) (pkg : Str) : Prop where
  alone : ∀ f p x, OnlyListed t pkg f → t.place [] f = some p → t.node p = some x → x ≠ .dir →
    entryLoc [] pkg <:+ p ∨ Cleared t (readContents t [] pkg) p
  listed : ∀ p x, t.node p = some x → Cleared t (readContents t [] pkg) p →
    entryLoc [] pkg <:+ p ∨ ∃ f ∈ linesOf t pkg, t.place [] f = some p
  apart : ∀ n, Installed t n → n ≠ pkg → ∀ p x, t.node p = some x → entryLoc [] n <:+ p →
    ¬ Cleared t (readContents t [] pkg) p

theorem installed_iff {t : Tree} {ns : List Str}
    (hl : lists t = ns.map (contentsLoc [])) (n : Str) :
    Installed t n ↔ n ∈ ns := by
  rw [Installed, hl, List.mem_map]
  constructor
  · rintro ⟨m, hm, he⟩
    rwa [← contentsLoc_inj he]
  · exact fun h => ⟨n, h, rfl⟩

theorem flatEntries_of_lists {t : Tree} {ns : List Str} (hl : lists t = ns.map (contentsLoc []))
    (hc : ∀ n ∈ ns, ∀ m ∈ t.children (entryLoc [] n), t.dirAt (m :: entryLoc [] n) = false) :
    FlatEntries t := by
  intro n hn m hm
  have hfile := hc n ((installed_iff hl n).mp hn) m (by rw [Tree.mem_children, hm]; rfl)
  rw [(Tree.dirAt_iff _ _).mpr hm] at hfile
  cases hfile

theorem Cleared.ne_dir {t : Tree} {fs : List Str} {p : Loc} {x : Node} (h : Cleared t fs p)
    (hp : t.node p = some x) :
    x ≠ .dir := by
  rintro rfl
  exact Tree.ne_dir_of_leadsToDir h.1 hp

theorem entryLoc_suffix {a b : Str} {q : Loc} (ha : entryLoc [] a <:+ q)
    (hb : entryLoc [] b <:+ q) :
    a = b := by
  have h := List.suffix_of_suffix_length_le ha hb (by simp [entryLoc])
  exact (List.cons.inj (h.eq_of_length (by simp [entryLoc]))).1

section

variable {t t' : Tree} {pkg : Str} (h : Removable t pkg)
include h

theorem Removable.list_kept (hun : uninstall [] (contentsFiles t []) pkg t = some t') {n : Str}
    (hn : Installed t n) (hne : n ≠ pkg) :
    t'.node (contentsLoc [] n) = t.node (contentsLoc [] n) := by
  obtain ⟨m, hm, _, _, e, ls, hls⟩ := h.own _ hn
  have hE : ¬ entryLoc [] pkg <:+ contentsLoc [] n := fun hs =>
    hne (entryLoc_suffix (List.suffix_cons contentsName (entryLoc [] n)) hs)
  rw [hls]
  exact uninstall_unnamed h.name h.dir hun hls (by simp) hE fun f hf => h.steady f hf _ hn

theorem Removable.removes (hun : uninstall [] (contentsFiles t []) pkg t = some t')
    (hflat : FlatEntries t) (hs : Selective t pkg) : Removes t t' pkg where
  gone f p x hf hp hx hd := by
    rw [h.uninstall_file hun hx hd, if_pos (hs.alone f p x hf hp hx hd)]
  kept p x hx hd hE hl := by
    rw [h.uninstall_file hun hx hd, if_neg]
    rintro (hE' | hc)
    · exact hE hE'
    · rcases hs.listed p x hx hc with hE' | ⟨f, hf, hp⟩
      · exact hE hE'
      · exact hl f hf hp
  entry q hq := uninstall_gone h.name h.dir hun hq
  others n hn hne q hq := by
    cases hx : t.node q with
    | none =>
        by_contra hs
        obtain ⟨y, hy⟩ := Option.ne_none_iff_exists'.mp hs
        rw [uninstall_within hun _ _ hy] at hx
        cases hx
    | some x =>
        have hE : ¬ entryLoc [] pkg <:+ q := fun hE => hne (entryLoc_suffix hq hE)
        by_cases hd : x = .dir
        · subst hd
          have he : q = entryLoc [] n := by
            by_contra hq'
            obtain ⟨m, hm⟩ := Tree.exists_cons_suffix hq (Ne.symm hq')
            by_cases hmq : m :: entryLoc [] n = q
            · exact hflat n hn m (hmq ▸ hx)
            · exact hflat n hn m (Tree.dir_of_suffix hm hmq (by rw [hx]; rfl))
          subst he
          apply t'.parent contentsName
          rw [← contentsLoc, h.list_kept hun hn hne]
          exact (mem_lists.mp hn).2.1
        · rw [h.uninstall_file hun hx hd, if_neg]
          rintro (hE' | hc)
          · exact hE hE'
          · exact hs.apart n hn hne q x hx hq hc

theorem Removable.selective (hun : uninstall [] (contentsFiles t []) pkg t = some t')
    (hr : Removes t t' pkg) :
    Selective t pkg where
  alone f p x hf hp hx hd := by
    have hgone := hr.gone f p x hf hp hx hd
    rw [h.uninstall_file hun hx hd] at hgone
    by_contra hc
    rw [if_neg hc] at hgone
    cases hgone
  listed p x hx hc := by
    by_contra hl
    rw [not_or] at hl
    have hkept := hr.kept p x hx (hc.ne_dir hx) hl.1 fun f hf hp => hl.2 ⟨f, hf, hp⟩
    rw [h.uninstall_file hun hx (hc.ne_dir hx), if_pos (.inr hc)] at hkept
    cases hkept
  apart n hn hne p x hx hp hc := by
    have hsame := hr.others n hn hne p hp
    rw [h.uninstall_file hun hx (hc.ne_dir hx), if_pos (.inr hc), hx] at hsame
    cases hsame

end

theorem removepkg_uninstall {hook : Hook} {env : Env} {root_dir pkg : Str} {s s' : Sys}
    (hroot : rootOr root_dir = ['/'])
    (hhook : s.tree.isExec [] (path (path pkgdb pkg) douninstName) = false)
    (h : removepkg hook env root_dir pkg s = some (s', 0)) :
    uninstall [] (contentsFiles s.tree []) pkg s.tree = some s'.tree := by
  have hrun : runDouninst hook env [] pkg s = s := by
    rw [runDouninst]
    simp [hhook]
  rcases removepkg_cases (by rw [hroot, stat_rootDir, Option.getD_some]) h
    with ⟨_, h0, _⟩ | ⟨_, _, hu, _⟩
  · exact absurd rfl h0
  · rwa [hrun] at hu

/-- A removal does what it is for exactly when the lines of the package are selective. -/
theorem removes_iff (hook : Hook) (env : Env) (root_dir pkg : Str) (s s' : Sys)
    (hroot : rootOr root_dir = ['/']) (hr : Removable s.tree pkg) (hflat : FlatEntries s.tree)
    (hhook : s.tree.isExec [] (path (path pkgdb pkg) douninstName) = false)
    (h : removepkg hook env root_dir pkg s = some (s', 0)) :
    Removes s.tree s'.tree pkg ↔ Selective s.tree pkg := by
  have hun := removepkg_uninstall hroot hhook h
  exact ⟨hr.selective hun, hr.removes hun hflat⟩

def binName : Str := ['b', 'i', 'n']

def binLine (n : Str) : Str := '/' :: path binName n

/-- Two packages that share `/bin`, with one file in it. -/
def binPackages (n : Str) : Tree := Tree.ofList [([varName], .dir), (pkgdbLoc [], .dir),
  (entryLoc [] firstPkg, .dir), (entryLoc [] secondPkg, .dir),
  (contentsLoc [] firstPkg, .file false [binLine [], binLine n]),
  (contentsLoc [] secondPkg, .file false [binLine []]), ([binName], .dir),
    ([n, binName], .file true [])]

def toolName : Str := ['x']

def testName : Str := ['[']

theorem binPackages_removable (n : Str) (hn : n = toolName ∨ n = testName) :
    Removable (binPackages n) firstPkg ∧ FlatEntries (binPackages n) := by
  have hl : lists (binPackages n) = [secondPkg, firstPkg].map (contentsLoc []) := by
    rcases hn with rfl | rfl <;> decide +kernel
  have hlist : ∃ e ls, (binPackages n).node (contentsLoc [] firstPkg) = some (.file e ls) := by
    rcases hn with rfl | rfl <;> exact ⟨_, _, rfl⟩
  refine ⟨⟨database_of_lists hl ?_ ?_, by decide, hlist, ?_⟩, flatEntries_of_lists hl ?_⟩
  · rcases hn with rfl | rfl <;> decide +kernel
  · rcases hn with rfl | rfl <;> decide +kernel
  · rcases hn with rfl | rfl <;> decide +kernel
  · rcases hn with rfl | rfl <;> decide +kernel

theorem binPackages_alone (n : Str) (hn : n = toolName ∨ n = testName) :
    OnlyListed (binPackages n) firstPkg (binLine n) := by
  have hl : lists (binPackages n) = [secondPkg, firstPkg].map (contentsLoc []) := by
    rcases hn with rfl | rfl <;> decide +kernel
  refine ⟨by rcases hn with rfl | rfl <;> decide +kernel, fun m hm hne => ?_⟩
  rw [installed_iff hl] at hm
  rcases List.mem_cons.mp hm with rfl | hm
  · rcases hn with rfl | rfl <;> decide +kernel
  · exact absurd (List.mem_singleton.mp hm) hne

theorem binPackages_selective : Selective (binPackages toolName) firstPkg := by
  have hlines : linesOf (binPackages toolName) firstPkg = [binLine [], binLine toolName] :=
    by decide +kernel
  have hread : readContents (binPackages toolName) [] firstPkg = [binLine [], binLine toolName] :=
    by decide +kernel
  have hbin : (binPackages toolName).place [] (binLine []) = none := by decide +kernel
  have htool : (binPackages toolName).place [] (binLine toolName) = some [toolName, binName] :=
    by decide +kernel
  have hplaced : ∀ f ∈ [binLine [], binLine toolName], ∀ p,
    (binPackages toolName).place [] f = some p →
      p = [toolName, binName] := by
    intro f hf p hp
    rcases List.mem_cons.mp hf with rfl | hf
    · rw [hbin] at hp
      cases hp
    · rw [List.mem_singleton.mp hf, htool] at hp
      exact (Option.some.inj hp).symm
  refine ⟨fun f p x hf hp hx hd => ?_, fun p x _ hc => ?_, fun n hn hne p x hx hp hc => ?_⟩
  · rw [hplaced f (hlines ▸ hf.1) p hp]
    exact .inr (by decide +kernel)
  · obtain ⟨_, f, hf, hpf, _⟩ := hc
    exact .inr ⟨f, by rwa [hlines, ← hread], hpf⟩
  · obtain ⟨_, f, hf, hpf, _⟩ := hc
    rw [hplaced f (hread ▸ hf) p hpf] at hp
    exact absurd hp.length_le (by simp [entryLoc, pkgdbLoc])

theorem removes_iff_tool :
    ∃ s', removepkg noHook ⟨[], false, []⟩ [] firstPkg ⟨binPackages toolName, []⟩ = some (s', 0) ∧
    Removes (binPackages toolName) s'.tree firstPkg := by
  have hrun : (removepkg noHook ⟨[], false, []⟩ [] firstPkg ⟨binPackages toolName, []⟩).any
      (fun q => decide (q.2 = 0)) = true := by decide +kernel
  obtain ⟨⟨s', k⟩, hq, hk⟩ := (Option.any_eq_true _ _).mp hrun
  obtain rfl : k = 0 := by simpa using hk
  obtain ⟨hr, hflat⟩ := binPackages_removable toolName (.inl rfl)
  exact ⟨s', hq,
    (removes_iff noHook ⟨[], false, []⟩ [] firstPkg _ s' rfl hr hflat (by decide +kernel) hq).mpr
    binPackages_selective⟩

/-- The line `/bin/[` is no regular expression that selects itself, so the file stays. -/
theorem bracket_stays :
    ¬ ∀ (hook : Hook) (env : Env) (pkg : Str) (s s' : Sys), Removable s.tree pkg →
    FlatEntries s.tree →
    s.tree.isExec [] (path (path pkgdb pkg) douninstName) = false →
    removepkg hook env [] pkg s = some (s', 0) →
    Removes s.tree s'.tree pkg := by
  intro h
  have hrun : (removepkg noHook ⟨[], false, []⟩ [] firstPkg ⟨binPackages testName, []⟩).any
      (fun q => decide (q.2 = 0) && (q.1.tree.node [testName, binName]).isSome) = true :=
        by decide +kernel
  obtain ⟨⟨s', k⟩, hq, hk⟩ := (Option.any_eq_true _ _).mp hrun
  rw [Bool.and_eq_true, decide_eq_true_eq] at hk
  obtain ⟨rfl, hstays⟩ := hk
  obtain ⟨hr, hflat⟩ := binPackages_removable testName (.inr rfl)
  have hgone :=
    (h noHook ⟨[], false, []⟩ firstPkg _ s' hr hflat (by decide +kernel) hq).gone (binLine testName)
    [testName, binName] _ (binPackages_alone testName (.inr rfl)) (by decide +kernel) rfl (by simp)
  rw [hgone] at hstays
  cases hstays

end Fidelix.Pkgtools
