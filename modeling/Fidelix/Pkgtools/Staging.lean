import Fidelix.Files.Paths
import Fidelix.Pkgtools.Makepkg
import Fidelix.Pkgtools.Naming
import Fidelix.Pkgtools.Database

namespace Fidelix.Pkgtools

open Text Files

def Named (t : Tree) : Prop := ∀ n d, (t.node (n :: d)).isSome → ProperName n

/-- Not in an entry of the database below `r`. -/
def Outside (r q : Loc) : Prop := ∀ n, ¬ n :: pkgdbLoc r <:+ q

/-- `R` names the directory `r`, and neither the way there nor the working directory is in an
entry below it. -/
structure Rooted (t : Tree) (cwd : Loc) (R : Str) (r : Loc) : Prop where
  base : t.node cwd = some .dir
  apart : Outside r cwd
  word : OneWord R
  walks : Tree.Walks t Tree.linkLimit (start cwd R) (names R) r
  dir : t.node r = some .dir
  trail : ∀ q ∈ t.trail Tree.linkLimit (start cwd R) (names R), Outside r q

theorem outside_root (r : Loc) : Outside r r := by
  intro n h
  have := h.length_le
  simp only [pkgdbLoc, List.length_cons] at this
  omega

theorem outside_pkgdb (r : Loc) : Outside r (pkgdbLoc r) := by
  intro n h
  have := h.length_le
  simp at this

namespace Rooted

variable {t u : Tree} {cwd : Loc} {R : Str} {r : Loc} (h : Rooted t cwd R r)
include h

theorem congr (hu : ∀ q, (t.node q).isSome → Outside r q → u.node q = t.node q) :
    Rooted u cwd R r := by
  have htrail : ∀ q ∈ t.trail Tree.linkLimit (start cwd R) (names R), u.node q = t.node q :=
    fun q hq => hu q (h.walks.trail_isSome q hq) (h.trail q hq)
  refine ⟨?_, h.apart, h.word, h.walks.of_trail htrail, ?_, ?_⟩
  · rw [hu cwd (by rw [h.base]; rfl) h.apart, h.base]
  · rw [hu r (by rw [h.dir]; rfl) (outside_root r), h.dir]
  · rw [h.walks.trail_eq htrail]
    exact h.trail

theorem start_path (s : Str) : start cwd (path R s) = start cwd R := by
  rw [start, start, path, List.head?_append_of_ne_nil _ h.word.1]

theorem placeAt {b : List Str} {n : Str} (hb : ∀ m ∈ b, m ≠ dot ∧ m ≠ dotdot)
    (hn : n ≠ dot ∧ n ≠ dotdot) (hdir : t.node (b.reverse ++ r) = some .dir) (s : Str) :
    t.placeAt (start cwd (path R s)) (names R ++ (b ++ [n])) = some (n :: (b.reverse ++ r)) := by
  rw [h.start_path]
  exact Tree.placeAt_deeper h.walks h.dir hb hdir hn

theorem place {b : List Str} {n s : Str} (hs : comps s = b ++ [n])
    (hb : ∀ m ∈ b, m ≠ dot ∧ m ≠ dotdot) (hn : n ≠ dot ∧ n ≠ dotdot)
    (hdir : t.node (b.reverse ++ r) = some .dir) :
    t.place cwd (path R s) = some (n :: (b.reverse ++ r)) := by
  have hne : s ≠ [] := by
    rintro rfl
    simp [comps] at hs
  rw [Tree.place, comps_path R hne, hs]
  exact h.placeAt hb hn hdir s

theorem below {b : List Str} {d : Loc} (hb : ∀ n ∈ b, n ≠ dot ∧ n ≠ dotdot)
    (hreal : ∀ q, r <:+ q → q <:+ b.reverse ++ r → q ≠ r → t.node q = none ∨ t.node q = some .dir)
    (s : Str) (hw : Tree.Walks t Tree.linkLimit (start cwd (path R s)) (names R ++ b) d) :
    d = b.reverse ++ r := by
  rw [h.start_path] at hw
  by_cases hb0 : b = []
  · subst hb0
    rw [List.append_nil] at hw
    exact Option.some.inj (hw.eval.symm.trans h.walks.eval)
  · obtain ⟨e, j, _, he, _, hrest⟩ := hw.split hb0 (Tree.start_dir h.base R)
    obtain rfl : e = r := Option.some.inj (he.eval.symm.trans h.walks.eval)
    exact hrest.chain hb hreal

theorem stat : t.stat cwd R = some r := Tree.stat_of_walks h.word.1 h.base h.walks h.dir

end Rooted

theorem entryIn_eq (R pkgname : Str) : entryIn R pkgname = path R (path pkgdb pkgname) := by
  simp [entryIn, pkgdbIn, path]

theorem entryFile_eq (R pkgname f : Str) :
    path (entryIn R pkgname) f = path R (path (path pkgdb pkgname) f) := by
  simp [entryIn, pkgdbIn, path]

theorem words_proper {t : Tree} (ht : Named t) (cwd : Loc) {s : Str} (hs : '/' ∉ s) :
    ∀ w ∈ expand t cwd s, w ≠ [] ∧ '/' ∉ w := by
  intro w hw
  obtain ⟨v, hv, hw⟩ := List.mem_flatMap.mp hw
  rw [words, List.mem_filter] at hv
  have hvs : '/' ∉ v := fun hc => hs ((sublist_of_mem_splitOnP blank s v hv.1).subset hc)
  have hv0 : v ≠ [] := by simpa using hv.2
  rw [globWord] at hw
  split at hw
  · rename_i hany
    have hfrom : globFrom t cwd [] (v.splitOn '/') = globNames t cwd [] v := by
      rw [List.splitOn_eq_singleton hvs, globFrom, if_pos hany]
      simp
    rw [hfrom] at hw
    simp only at hw
    split at hw
    · rw [List.mem_singleton.mp hw]
      exact ⟨hv0, hvs⟩
    · rw [globNames] at hw
      split at hw
      · cases hw
      · rename_i d _
        rw [List.mem_filter, Tree.mem_children] at hw
        have hn := ht w d hw.1
        exact ⟨hn.1, hn.2.1⟩
  · rw [List.mem_singleton.mp hw]
    exact ⟨hv0, hvs⟩

theorem destpkgdb_eq (t : Tree) (cwd : Loc) {R pkgname : Str} (hR : OneWord R)
    (hp : OneWord pkgname) (hs : '/' ∉ pkgname) :
    destpkgdbOf (echo t cwd (entryIn R pkgname)) = pkgdbIn R := by
  have hword : OneWord (entryIn R pkgname) := oneWord_path (oneWord_path hR (by decide)) hp
  have hrev : rev (entryIn R pkgname) = rev pkgname ++ '/' :: rev (pkgdbIn R) :=
    by simp [rev, entryIn, path]
  have hmem : '/' ∉ rev pkgname := fun h => hs (List.mem_reverse.mp h)
  rw [echo_oneWord t cwd hword, destpkgdbOf, hrev, cutFrom_succ '/' 0 _ _ hmem,
    dropFields_zero, rev, rev,
    List.reverse_reverse]

def Dropped (ws : List Str) (pkgname : Str) (r q : Loc) : Prop :=
  ∃ w ∈ ws, w ≠ pkgname ∧ ProperName w ∧ w :: pkgdbLoc r <:+ q

instance (ws : List Str) (pkgname : Str) (r q : Loc) : Decidable (Dropped ws pkgname r q) :=
  inferInstanceAs (Decidable (∃ w ∈ ws, w ≠ pkgname ∧ ProperName w ∧ w :: pkgdbLoc r <:+ q))

theorem Dropped.not_outside {ws : List Str} {pkgname : Str} {r q : Loc}
    (h : Dropped ws pkgname r q) :
    ¬ Outside r q := by
  obtain ⟨w, _, _, _, hw⟩ := h
  exact fun ho => ho w hw

section

variable {t : Tree} {cwd : Loc} {R : Str} {r : Loc}

theorem rmTree_listed (h : Rooted t cwd R r) (hd : t.node (pkgdbLoc r) = some .dir) {w : Str}
    (hw : w ≠ []) (hs : '/' ∉ w) (q : Loc) : (t.rmTree cwd (path (pkgdbIn R) w)).node q =
      if ProperName w ∧ w :: pkgdbLoc r <:+ q then none else t.node q := by
  have hpath : path (pkgdbIn R) w = path R (path pkgdb w) := entryIn_eq R w
  have hnames : names (path R (path pkgdb w)) = names R ++ ([varName, pkgdbName] ++ [w]) := by
    rw [path, names_append_slash, path, names_append_slash, names_of_not_mem w hw hs]
    rfl
  rw [Tree.rmTree, hpath, hnames]
  by_cases hdots : w = dot ∨ w = dotdot
  · have hnone :
      t.placeAt (start cwd (path R (path pkgdb w)))
      (names R ++ ([varName, pkgdbName] ++ [w])) = none := by
      rw [Tree.placeAt, ← List.append_assoc, List.getLast?_concat]
      simp only [hdots, if_true]
    rw [hnone, if_neg]
    rintro ⟨hn, _⟩
    exact hdots.elim hn.2.2.1 hn.2.2.2
  · rw [not_or] at hdots
    rw [h.placeAt (b := [varName, pkgdbName]) (by decide) hdots hd]
    simp only
    rw [Tree.prune_node t (List.cons_ne_nil _ _)]
    exact if_congr ⟨fun hq => ⟨⟨hw, hs, hdots⟩, hq⟩, fun hq => hq.2⟩ rfl rfl

theorem dropped_node (pkgname : Str) {ws : List Str} (hws : ∀ w ∈ ws, w ≠ [] ∧ '/' ∉ w)
    (h : Rooted t cwd R r) (hd : t.node (pkgdbLoc r) = some .dir) (q : Loc) :
    (ws.foldl (fun t pkg => if pkg = pkgname then t
      else t.rmTree cwd (path (pkgdbIn R) pkg)) t).node q =
      if Dropped ws pkgname r q then none else t.node q := by
  induction ws generalizing t with
  | nil =>
      rw [if_neg]
      · rfl
      · rintro ⟨w, hw, _⟩
        cases hw
  | cons w ws ih =>
      have hrest : ∀ v ∈ ws, v ≠ [] ∧ '/' ∉ v := fun v hv => hws v (by simp [hv])
      rw [List.foldl_cons]
      by_cases hw : w = pkgname
      · have hiff : Dropped (w :: ws) pkgname r q ↔ Dropped ws pkgname r q := by
          simp only [Dropped, List.exists_mem_cons_iff, hw, ne_eq, not_true_eq_false,
            false_and, false_or]
        rw [if_pos hw, ih hrest h hd]
        exact if_congr hiff.symm rfl rfl
      · have hnode := rmTree_listed h hd (hws w (by simp)).1 (hws w (by simp)).2
        have hout : ∀ p, Outside r p → (t.rmTree cwd (path (pkgdbIn R) w)).node p = t.node p := by
          intro p hp
          rw [hnode, if_neg fun hc => hp w hc.2]
        have hd' := (hout _ (outside_pkgdb r)).trans hd
        rw [if_neg hw, ih hrest (h.congr fun p _ hp => hout p hp) hd', hnode]
        by_cases hc : ProperName w ∧ w :: pkgdbLoc r <:+ q
        · have hdrop : Dropped (w :: ws) pkgname r q := ⟨w, by simp, hw, hc⟩
          rw [if_pos hc, if_pos hdrop, ite_self]
        · have hiff : Dropped (w :: ws) pkgname r q ↔ Dropped ws pkgname r q := by
            simp only [Dropped, List.exists_mem_cons_iff, hc, and_false, false_or]
          rw [if_neg hc]
          exact if_congr hiff.symm rfl rfl

def otherWords (t : Tree) (cwd : Loc) (R : Str) : List Str :=
  (t.ls cwd (pkgdbIn R)).flatMap (expand t cwd)

theorem comps_pkgdb : comps pkgdb = [varName] ++ [pkgdbName] := by decide

theorem isDir_pkgdb (h : Rooted t cwd R r)
    (hvar : t.node (varName :: r) = none ∨ t.node (varName :: r) = some .dir)
    (hdb : t.node (pkgdbLoc r) = none ∨ t.node (pkgdbLoc r) = some .dir) :
    t.isDir cwd (pkgdbIn R) = true ↔ t.node (pkgdbLoc r) = some .dir := by
  have hlast : (comps (pkgdbIn R)).getLast? = some pkgdbName := by
    rw [pkgdbIn, comps_path R (by decide), comps_pkgdb, ← List.append_assoc, List.getLast?_concat]
  have hdrop : (comps (pkgdbIn R)).dropLast = names R ++ [varName] := by
    rw [pkgdbIn, comps_path R (by decide), comps_pkgdb, ← List.append_assoc, List.dropLast_concat]
  have hplace (hv : t.node (varName :: r) = some .dir) :
    t.place cwd (pkgdbIn R) = some (pkgdbLoc r) :=
    h.place comps_pkgdb (by decide) (by decide) hv
  constructor
  · intro hd
    obtain ⟨x, hx, hxd⟩ := Tree.isDir_iff.mp hd
    rw [Tree.stat_eq_bind hlast (by decide) (by decide), Option.bind_eq_some_iff] at hx
    obtain ⟨p, hp, hx⟩ := hx
    have hv : t.node (varName :: r) = some .dir := by
      obtain ⟨d, _, hw, hd⟩ := (Tree.place_iff_dir hlast (by decide) (by decide)).mp hp
      rw [hdrop] at hw
      rwa [h.below (by decide) (fun q h1 h2 hne => ?_) _ hw] at hd
      rcases List.suffix_cons_iff.mp h2 with rfl | h2
      · exact hvar
      · exact absurd (h2.eq_of_length (le_antisymm h2.length_le h1.length_le)) hne
    rw [hplace hv, Option.some.injEq] at hp
    refine hdb.resolve_left fun hnone => ?_
    rw [← hp, Tree.deref_none hnone] at hx
    cases hx
  · intro hd
    have hv : t.node (varName :: r) = some .dir :=
      t.parent pkgdbName _ (by rw [← pkgdbLoc, hd]; rfl)
    rw [Tree.isDir_eq_leadsToDir (hplace hv), Tree.leadsToDir_iff]
    exact .inl hd

theorem removeOther_node (ht : Named t) (h : Rooted t cwd R r)
    (hvar : t.node (varName :: r) = none ∨ t.node (varName :: r) = some .dir)
    (hdb : t.node (pkgdbLoc r) = none ∨ t.node (pkgdbLoc r) = some .dir) (pkgname : Str) (q : Loc) :
    (removeOtherMetadata cwd (pkgdbIn R) pkgname t).node q =
      if Dropped (otherWords t cwd R) pkgname r q then none else t.node q := by
  rw [removeOtherMetadata]
  by_cases hd : t.isDir cwd (pkgdbIn R) = true
  · have hwords : ∀ w ∈ otherWords t cwd R, w ≠ [] ∧ '/' ∉ w := by
      intro w hw
      obtain ⟨n, hn, hw⟩ := List.mem_flatMap.mp hw
      rw [Tree.ls] at hn
      split at hn
      · cases hn
      · rename_i d _
        rw [List.mem_filter, Tree.mem_children] at hn
        exact words_proper ht cwd (ht n d hn.1).2.1 w hw
    rw [if_pos hd]
    exact dropped_node pkgname hwords h ((isDir_pkgdb h hvar hdb).mp hd) q
  · have hnil : otherWords t cwd R = [] := by
      have hfilter : (t.stat cwd (pkgdbIn R)).filter t.dirAt = none := by
        cases hs : t.stat cwd (pkgdbIn R) with
        | none => rfl
        | some d => simpa [Tree.isDir, hs] using hd
      rw [otherWords, Tree.ls, hfilter]
      rfl
    rw [if_neg hd, if_neg]
    rw [hnil]
    rintro ⟨w, hw, _⟩
    cases hw

end

def metadataFiles : List Str := plainMetadata ++ scriptMetadata

def SameContent (a b : Option Node) : Prop :=
  (∃ e e' ls, a = some (.file e ls) ∧ b = some (.file e' ls)) ∨
    ∃ ms i, a = some (.archive ms i) ∧ b = some (.archive ms i)

theorem SameContent.refl {x : Node} (hx : Tree.Bare (some x)) : SameContent (some x) (some x) := by
  cases x with
  | dir => exact absurd rfl hx.1
  | link g => exact absurd rfl (hx.2 g)
  | file e ls => exact .inl ⟨e, e, ls, rfl, rfl⟩
  | archive ms i => exact .inr ⟨ms, i, rfl, rfl⟩

theorem SameContent.bare {a b : Option Node} (h : SameContent a b) : Tree.Bare b := by
  rcases h with ⟨e, e', ls, _, rfl⟩ | ⟨ms, i, _, rfl⟩ <;> exact ⟨by simp, by simp⟩

theorem landing_bare {t : Tree} {p : Loc} (h : Tree.Bare (t.node p)) :
    t.landing (Tree.linkLimit + 1) p = some p := by
  rw [Tree.landing]
  split
  · rename_i g hg
    exact absurd hg (h.2 g)
  · rfl

theorem basename_path (M : Str) {f : Str} (hf : ProperName f) : Tree.basename (path M f) = f := by
  rw [Tree.basename, path, names_append_slash, names_of_not_mem f hf.1 hf.2.1, List.getLastD_concat]

section

variable {t u : Tree} {cwd p : Loc} {M D f : Str} (hf : ProperName f)
  (hp : t.place cwd (path D f) = some p) (hb : Tree.Bare (t.node p))

def Copies (t u : Tree) (cwd p : Loc) (src : Str) : Prop :=
  (t.present cwd src = true ∧ SameContent (t.lead cwd src) (u.node p) ∧ ∀ q, q ≠ p →
    u.node q = t.node q) ∨
    (t.present cwd src = false ∧ u = t)

include hf hp hb

theorem cp_spec (h : cp t cwd (path M f) D = some u) :
    SameContent (t.lead cwd (path M f)) (u.node p) ∧ ∀ q, q ≠ p → u.node q = t.node q := by
  rw [cp, basename_path M hf, hp, Option.bind_some, landing_bare hb, Option.bind_eq_some_iff] at h
  obtain ⟨x, hx, h⟩ := h
  rw [Option.bind_some] at h
  rw [Tree.lead, hx, Option.bind_some]
  split at h
  · cases h
  · have hput {y : Node} (h : t.put p y = some u) : u.node p = some y ∧ ∀ q, q ≠ p →
      u.node q = t.node q :=
      ⟨by rw [Tree.put_node h, if_pos rfl], fun q hq => by rw [Tree.put_node h, if_neg hq]⟩
    cases hxn : t.node x with
    | none => simp [hxn] at h
    | some y =>
        cases y with
        | dir | link g => simp [hxn] at h
        | archive ms i =>
            simp only [hxn] at h
            rw [(hput h).1]
            exact ⟨.inr ⟨ms, i, rfl, rfl⟩, (hput h).2⟩
        | file e ls =>
            simp only [hxn] at h
            split at h
            · rename_i he _
              obtain ⟨rfl, rfl⟩ := Node.file.inj (Option.some.inj he)
              rw [(hput h).1]
              exact ⟨.inl ⟨_, _, _, rfl, rfl⟩, (hput h).2⟩
            · rename_i he _
              obtain ⟨rfl, rfl⟩ := Node.file.inj (Option.some.inj he)
              rw [(hput h).1]
              exact ⟨.inl ⟨_, _, _, rfl, rfl⟩, (hput h).2⟩
            · rename_i he
              cases he
            · cases h

theorem copyPlain_copies (h : copyPlain cwd M D t f = (u, true)) : Copies t u cwd p (path M f) := by
  rw [copyPlain] at h
  split at h
  · rename_i hpres
    cases hc : cp t cwd (path M f) D with
    | none => simp [hc] at h
    | some v =>
        simp only [hc, Prod.mk.injEq, and_true] at h
        subst h
        exact .inl ⟨hpres, cp_spec hf hp hb hc⟩
  · rename_i hpres
    simp only [Prod.mk.injEq, and_true] at h
    exact .inr ⟨by simpa using hpres, h.symm⟩

theorem copyScript_copies (h : copyScript cwd M D t f = (u, true)) :
    Copies t u cwd p (path M f) := by
  rw [copyScript] at h
  split at h
  · rename_i hpres
    cases hc : cp t cwd (path M f) D with
    | none => simp [hc] at h
    | some v =>
        obtain ⟨hsame, hrest⟩ := cp_spec hf hp hb hc
        cases he : makeExec v cwd (path D f) with
        | none => simp [hc, he] at h
        | some w =>
            simp only [hc, he, Prod.mk.injEq, and_true] at h
            subst h
            have hbeside : Tree.Beside (· = p) t v :=
              ⟨hrest, fun q hq => .inr ⟨hq ▸ hb, hq ▸ hsame.bare⟩⟩
            have hplace : v.place cwd (path D f) = some p := (hbeside.place_eq _ _).trans hp
            refine .inl ⟨hpres, ?_⟩
            rw [makeExec, Tree.stat_of_place hplace] at he
            rcases hsame with ⟨e, e', ls, hsrc, hv⟩ | ⟨ms, i, hsrc, hv⟩
            · rw [Tree.deref_of_node hv (by simp), Option.bind_some, hv] at he
              refine ⟨?_, fun q hq => ?_⟩
              · rw [hsrc, Tree.put_node he, if_pos rfl]
                exact .inl ⟨e, true, ls, rfl, rfl⟩
              · rw [Tree.put_node he, if_neg hq, hrest q hq]
            · rw [Tree.deref_of_node hv (by simp), Option.bind_some, hv] at he
              rw [← Option.some.inj he, hsrc, hv]
              exact ⟨.inr ⟨ms, i, rfl, rfl⟩, hrest⟩
  · rename_i hpres
    simp only [Prod.mk.injEq, and_true] at h
    exact .inr ⟨by simpa using hpres, h.symm⟩

end

end Fidelix.Pkgtools
