import Fidelix.Services.Runs

namespace Fidelix.Services

open Text Files Pkgtools

theorem oneWord_rcEnabled : OneWord rcEnabled := by decide

theorem flatMap_words (t : Tree) {ms : List Str} (h : ∀ m ∈ ms, WordName m) :
    ms.flatMap (expand t []) = ms := by
  induction ms with
  | nil => rfl
  | cons m ms ih =>
      have hm := h m (by simp)
      rw [List.flatMap_cons, expand_oneWord t [] (hm.2.oneWord hm.1.1), ih fun n hn =>
        h n (by simp [hn])]
      rfl

theorem Layout.stat_rcEnabled {t : Tree} (h : Layout t) :
    t.stat [] rcEnabled = some enabledLoc := by
  have hc : comps rcEnabled = [etcName, rcdName] ++ [enabledName] := by decide
  have hp : t.place [] rcEnabled = some enabledLoc :=
    place_real [etcName, rcdName] hc (by decide) h.rcd
  rw [Tree.stat_of_place hp]
  exact Tree.deref_of_node h.enabled (by simp)

section Loops

variable {vars : Vars} {t : Tree} (h : Tidy vars t) (hp : AllPlain vars t)
include h

theorem ls_enabled : t.ls [] rcEnabled = t.children enabledLoc := by
  have hdir : t.dirAt enabledLoc = true := by simpa using h.enabled
  rw [Tree.ls, h.stat_rcEnabled, Option.filter_some, if_pos hdir]
  apply List.filter_eq_self.mpr
  intro m hm
  obtain ⟨x, hx⟩ := Option.isSome_iff_exists.mp ((t.mem_children _ m).mp hm)
  exact (h.owned m x hx).2.1

theorem word_of_child {m : Str} (hm : m ∈ t.children enabledLoc) : WordName m := by
  obtain ⟨x, hx⟩ := Option.isSome_iff_exists.mp ((t.mem_children _ m).mp hm)
  exact (h.owned m x hx).1

theorem rc_eq : rc t = (t.children enabledLoc).filterMap (launched t) := by
  have hd : t.isDir [] rcEnabled = true := by
    simp only [Tree.isDir, h.stat_rcEnabled, Option.map_some, Option.getD_some]
    simpa using h.enabled
  rw [rc, if_pos hd, ls_enabled h, flatMap_words t fun m hm => word_of_child h hm]

theorem rcShutdown_eq : rcShutdown t = (rc t).reverse := by
  have hd : t.isDir [] rcEnabled = true := by
    simp only [Tree.isDir, h.stat_rcEnabled, Option.map_some, Option.getD_some]
    simpa using h.enabled
  have hw : ∀ m ∈ (t.children enabledLoc).reverse, WordName m := fun m hm =>
    word_of_child h (List.mem_reverse.mp hm)
  rw [rcShutdown, if_pos hd, Tree.lsReverse, ls_enabled h, flatMap_words t hw, rc_eq h,
    List.filterMap_reverse]

theorem owner_of_child {m : Str} (hm : m ∈ t.children enabledLoc) :
    ∃ svc s, scriptAt vars t svc = some s ∧ m ∈ linksOf t svc := by
  obtain ⟨x, hx⟩ := Option.isSome_iff_exists.mp ((t.mem_children _ m).mp hm)
  obtain ⟨_, _, svc, s, hs, hb⟩ := h.owned m x hx
  exact ⟨svc, s, hs, x, hx, hb⟩

include hp

theorem launched_link {svc m : Str} (hm : m ∈ linksOf t svc) :
    launched t m = some (svc :: initdLoc) := by
  obtain ⟨x, hx, hb⟩ := hm
  obtain ⟨hw, _, svc', s, hs, hb'⟩ := h.owned m x hx
  obtain rfl := hb.inj hb'
  obtain ⟨ls, hn, _⟩ := scriptAt_eq hs
  have hst : t.stat [] (path rcEnabled m) = some (svc :: initdLoc) := by
    rw [Tree.stat_of_place (place_rcEnabled h.toLayout hw.1 [])]
    exact h.deref_link hs (hp svc s hs).file ⟨x, hx, hb⟩
  rw [launched, expand_oneWord t [] (hw.oneWord_path oneWord_rcEnabled)]
  simp [Tree.isExec, hst, hn]

theorem mem_rc {svc : Str} : svc :: initdLoc ∈ rc t ↔ (linksOf t svc).Nonempty := by
  rw [rc_eq h, List.mem_filterMap]
  constructor
  · rintro ⟨m, hm, hl⟩
    obtain ⟨svc', s, hs, hm'⟩ := owner_of_child h hm
    rw [launched_link h hp hm'] at hl
    obtain rfl := (List.cons.inj (Option.some.inj hl)).1
    exact ⟨m, hm'⟩
  · rintro ⟨m, hm⟩
    have hl := launched_link h hp hm
    obtain ⟨x, hx, _⟩ := hm
    exact ⟨m, (t.mem_children _ m).mpr (by simp [hx]), hl⟩

end Loops

end Fidelix.Services
