import Fidelix.Pkgtools.Upgradepkg
import Fidelix.Pkgtools.Pkgtool
import Fidelix.Pkgtools.Makepkg

namespace Fidelix.Pkgtools

open Text Files

inductive Command
  | makepkg (o : MakeOptions) (date : List Str)
  | installpkg (o : Options) (pkgfile : Str)
  | upgradepkg (o : Options) (pkgfile : Str)
  | removepkg (root_dir pkgname : Str)
  | pkgtool (sub : Option Subcommand) (args : List Str)

def Command.run (copy : Copy) (hook : Hook) (env : Env) (s : Sys) : Command → Run
  | .makepkg o date =>
      let r := Pkgtools.makepkg copy env o date s.tree
      some ({ s with tree := r.1 }, r.2)
  | .installpkg o pkgfile => Pkgtools.installpkg copy hook env o pkgfile s
  | .upgradepkg o pkgfile => Pkgtools.upgradepkg copy hook env o pkgfile s
  | .removepkg root_dir pkgname => Pkgtools.removepkg hook env root_dir pkgname s
  | .pkgtool sub args =>
      let r := Pkgtools.pkgtool env sub args s.tree
      some ({ s with tree := r.1 }, r.2)

def Command.unpacks (env : Env) (s : Sys) : Command → Option (Str × Str × Sys)
  | .installpkg o pkgfile => (accepted env o pkgfile s).toOption.map fun u =>
      (pkgfile, pkgnameOf (echo s.tree env.cwd pkgfile), u)
  | .upgradepkg o pkgfile => (upgradeStart env o pkgfile s).map fun u =>
      (pkgfile, pkgnameOf (echo s.tree env.cwd pkgfile), u)
  | .makepkg _ _ | .removepkg _ _ | .pkgtool _ _ => none

/-- An install or an upgrade on the root `/`. -/
def Command.installs : Command → Prop
  | .installpkg o _ | .upgradepkg o _ => rootOr o.root_dir = ['/']
  | .makepkg _ _ | .removepkg _ _ | .pkgtool _ _ => False

theorem Command.install_cases {copy : Copy} {hook : Hook} {env : Env} {s : Sys} {c : Command}
    {q : Sys × Nat} (hroot : c.installs) (h : c.run copy hook env s = some q) :
    (c.unpacks env s = none ∧ q.1 = s ∧ q.2 ≠ 0) ∨
    ∃ pkgfile pkg u up p pkgs, c.unpacks env s = some (pkgfile, pkg, u) ∧
      install copy hook { env with do_upgradepkg := up } ['/'] pkgfile pkg u = some p ∧
      (q.1 = p.1 ∨
        removeOldVersions hook { env with do_upgradepkg := up } ['/'] pkgs p.1 = some q) := by
  cases c with
  | makepkg _ _ | removepkg _ _ | pkgtool _ _ => exact hroot.elim
  | installpkg o pkgfile =>
      rw [run, installpkg_accepted, show rootOr o.root_dir = ['/'] from hroot] at h
      rw [unpacks]
      cases ha : accepted env o pkgfile s with
      | error k =>
          rw [ha] at h
          rw [← Option.some.inj h]
          exact .inl ⟨rfl, rfl, accepted_error ha⟩
      | ok u =>
          rw [ha] at h
          exact .inr ⟨_, _, u, env.do_upgradepkg, q, [], rfl, h, .inl rfl⟩
  | upgradepkg o pkgfile =>
      have hr : rootOr o.root_dir = ['/'] := hroot
      rw [unpacks]
      rcases upgradepkg_cases h with ⟨hu, hq⟩ | ⟨u, up, p, hu, hp, hq⟩
      · exact .inl ⟨by rw [hu]; rfl, hq⟩
      · rw [hr] at hp hq
        refine .inr ⟨_, _, u, up, p, removedAfter env o pkgfile s p.1.tree, by rw [hu]; rfl, hp, ?_⟩
        rcases hq with ⟨_, hq, _⟩ | ⟨_, hq⟩
        · exact .inl hq
        · exact .inr hq

theorem Command.unpacks_ok {env : Env} {s u : Sys} {c : Command} {pkgfile pkg : Str}
    (hroot : c.installs) (h : c.unpacks env s = some (pkgfile, pkg, u)) :
    u = s ∨ u = setAside env ['/'] pkg s := by
  cases c with
  | makepkg _ _ | removepkg _ _ | pkgtool _ _ => exact hroot.elim
  | installpkg o f =>
      obtain ⟨v, hv, he⟩ := Option.map_eq_some_iff.mp h
      obtain ⟨rfl, rfl, rfl⟩ : f = pkgfile ∧ pkgnameOf (echo s.tree env.cwd f) = pkg ∧ v = u :=
        by simpa using he
      cases ha : accepted env o f s with
      | error k => simp [ha, Except.toOption] at hv
      | ok w =>
          obtain rfl : w = v := by simpa [ha, Except.toOption] using hv
          rw [← show rootOr o.root_dir = ['/'] from hroot]
          exact (accepted_ok ha).imp_right fun h => h.2.2
  | upgradepkg o f =>
      obtain ⟨v, hv, he⟩ := Option.map_eq_some_iff.mp h
      obtain ⟨rfl, rfl, rfl⟩ : f = pkgfile ∧ pkgnameOf (echo s.tree env.cwd f) = pkg ∧ v = u :=
        by simpa using he
      rw [← show rootOr o.root_dir = ['/'] from hroot]
      exact (upgradeStart_ok hv).imp_right fun h => h.2.2

def runAll (copy : Copy) (hook : Hook) : List (Env × Command) → Sys → Option (Sys × List Nat)
  | [], s => some (s, [])
  | c :: cs, s => (c.2.run copy hook c.1 s).bind fun r =>
      (runAll copy hook cs r.1).map fun q => (q.1, r.2 :: q.2)

def Along (copy : Copy) (hook : Hook) (P : Env → Sys → Command → Prop) :
    List (Env × Command) → Sys → Prop
  | [], _ => True
  | c :: cs, s => P c.1 s c.2 ∧ ∀ q, c.2.run copy hook c.1 s = some q → Along copy hook P cs q.1

theorem Along.mono {copy : Copy} {hook : Hook} {P Q : Env → Sys → Command → Prop}
    {cs : List (Env × Command)} {s : Sys} (h : Along copy hook P cs s)
    (hPQ : ∀ c ∈ cs, ∀ u, P c.1 u c.2 → Q c.1 u c.2) :
    Along copy hook Q cs s := by
  induction cs generalizing s with
  | nil => exact trivial
  | cons c cs ih =>
      exact ⟨hPQ c (by simp) s h.1, fun q hq => ih (h.2 q hq) fun d hd => hPQ d (by simp [hd])⟩

end Fidelix.Pkgtools
