import Fidelix.Pkgtools.Insignia

namespace Fidelix.Pkgtools.Insignia

open Text Files

def Unlinked (t : Tree) (cwd : Loc) (s : Str) : Prop :=
  ∀ p, t.place cwd s = some p → ∀ g, t.node p ≠ some (.link g)

/-- Writing at the place of `out` changes nothing of what `s` leads to. -/
def Clear (t : Tree) (cwd : Loc) (out s : Str) : Prop :=
  ∀ p, t.place cwd out = some p → p ∉ t.looks cwd s

/-- A correct pair of `sign` and `verify`. The first changes nothing but its output, its
verdict and that of the second depend on the contents only, and what is signed verifies. -/
structure Openssl.Correct (o : Openssl) (pair : Option Node → Option Node → Prop) : Prop where
  writes : ∀ cwd key out file t, Unlinked t cwd out →
    Tree.Beside (fun q => t.place cwd out = some q) t (o.sign cwd key out file t).1
  verdict : ∀ cwd key out file t out' file' t', Unlinked t cwd out → Unlinked t' cwd out' →
    t.lead cwd key = t'.lead cwd key → t.lead cwd file = t'.lead cwd file' →
    (t.place cwd out).map t.dirAt = (t'.place cwd out').map t'.dirAt →
    (o.sign cwd key out file t).2 = (o.sign cwd key out' file' t').2
  reads : ∀ cwd pub sig file t sig' file' t', t.lead cwd pub = t'.lead cwd pub →
    t.lead cwd sig = t'.lead cwd sig' →
    t.lead cwd file = t'.lead cwd file' →
      o.verify cwd pub sig [file] t = o.verify cwd pub sig' [file'] t'
  signed : ∀ cwd key pub out file t, t.node cwd = some .dir → Unlinked t cwd out →
    (∀ s ∈ [key, pub, file], Clear t cwd out s) →
    pair (t.lead cwd key) (t.lead cwd pub) → (o.sign cwd key out file t).2 = true →
    o.verify cwd pub out [file] (o.sign cwd key out file t).1 = true
  loads : ∀ cwd pub sig file t, o.verify cwd pub sig [file] t = true → o.pkey cwd pub t = true

/-- `openssl` can sign the file. -/
def Signable (o : Openssl) (cwd : Loc) (KEY : Str) (t : Tree) (file : Str) : Prop :=
  (o.sign cwd KEY (sigOf file) file t).2 = true

/-- `file.sha512sig` holds a valid signature of the file. -/
def Valid (o : Openssl) (cwd : Loc) (PUBKEY : Str) (t : Tree) (file : Str) : Prop :=
  o.verify cwd PUBKEY (sigOf file) [file] t = true

structure Apart (t : Tree) (cwd : Loc) (KEY PUBKEY : Str) (files : List Str) : Prop where
  unlinked : ∀ f ∈ files, Unlinked t cwd (sigOf f)
  clear : ∀ f ∈ files, ∀ s ∈ KEY :: PUBKEY :: files, Clear t cwd (sigOf f) s
  one : ∀ f ∈ files, ∀ g ∈ files, ∀ p, t.place cwd (sigOf f) = some p →
    t.place cwd (sigOf g) = some p →
    t.lead cwd f = t.lead cwd g

/-- The exit status tells the truth: about the listed files when signing, about any
signatures when verifying, and about both. -/
structure Truthful (o : Openssl) (cwd : Loc) (KEY PUBKEY : Str) (files : List Str)
    (t : Tree) : Prop where
  signs : (insignia o cwd KEY PUBKEY files t .sign).status = 0 → ∀ f ∈ files,
    f ∈ (insignia o cwd KEY PUBKEY files t .sign).signed ∧
      Valid o cwd PUBKEY (insignia o cwd KEY PUBKEY files t .sign).tree f
  verifies : ∀ sigs, (∀ s ∈ sigs, OneWord s ∧ dropExtension s ≠ []) →
    (insignia o cwd KEY PUBKEY sigs t .verify).status = 0 →
    ∀ s ∈ sigs, o.verify cwd PUBKEY s [dropExtension s] t = true
  agrees : PUBKEY ≠ [] → (insignia o cwd KEY PUBKEY files t .sign).status = 0 →
    (insignia o cwd KEY PUBKEY (files.map sigOf) (insignia o cwd KEY PUBKEY files t .sign).tree
      .verify).status = 0

section

variable {o : Openssl} {pair : Option Node → Option Node → Prop} (ho : o.Correct pair) {t : Tree}
  {cwd : Loc} {KEY PUBKEY : Str} {files : List Str} (hcwd : t.node cwd = some .dir)
  (ha : Apart t cwd KEY PUBKEY files)

def Places (t : Tree) (cwd : Loc) (files : List Str) (q : Loc) : Prop :=
  ∃ f ∈ files, t.place cwd (sigOf f) = some q

theorem rm_beside {P : Loc → Prop} {t u : Tree} (h : Tree.Beside P t u) {s : Str}
    (hs : Unlinked u cwd s) (hp : ∀ p, u.place cwd s = some p → P p) :
    Tree.Beside P t (u.rm cwd s) := by
  rw [Tree.rm]
  split
  · exact h
  · rename_i p hpl
    cases hu : u.unlink p with
    | none => exact h
    | some v =>
        refine h.trans ⟨fun q hq => ?_, fun q hq => ?_⟩
        · rw [Option.getD_some, Tree.unlink_node hu, if_neg]
          rintro rfl
          exact hq (hp q hpl)
        · rw [Option.getD_some, Tree.unlink_node hu]
          split
          · rename_i he
            subst he
            exact .inr ⟨⟨(Tree.unlink_pre hu).2, hs q hpl⟩, by simp, by simp⟩
          · exact .inl rfl

theorem Unlinked.beside {P : Loc → Prop} {t u : Tree} (h : Tree.Beside P t u) {s : Str}
    (hs : Unlinked t cwd s) :
    Unlinked u cwd s := by
  intro p hp g hg
  rw [h.place_eq] at hp
  exact hs p hp g (h.symm.link hg)

include ha

theorem lead_beside {u : Tree} (hcwd : t.node cwd = some .dir)
    (h : Tree.Beside (Places t cwd files) t u) {s : Str} (hs : s ∈ KEY :: PUBKEY :: files) :
    u.lead cwd s = t.lead cwd s := by
  apply h.lead_eq hcwd
  rintro q hq ⟨f, hf, hp⟩
  exact ha.clear f hf s hs q hp hq

include hcwd ho

section

variable {s : Signing} {f : Str} (hs : Tree.Beside (Places t cwd files) t s.tree) (hf : f ∈ files)
include hs hf

theorem sign_verdict :
    (o.sign cwd KEY (sigOf f) f s.tree).2 = (o.sign cwd KEY (sigOf f) f t).2 := by
  have hunl := ha.unlinked f hf
  apply ho.verdict cwd KEY (sigOf f) f s.tree (sigOf f) f t (hunl.beside hs) hunl
  · exact lead_beside ha hcwd hs (by simp)
  · exact lead_beside ha hcwd hs (by simp [hf])
  · rw [hs.place_eq]
    exact congrArg (fun d => (t.place cwd (sigOf f)).map d) (funext hs.dirAt_eq)

omit hcwd in
theorem sign_beside : Tree.Beside (Places t cwd files) t (o.sign cwd KEY (sigOf f) f s.tree).1 := by
  have hw := ho.writes cwd KEY (sigOf f) f s.tree ((ha.unlinked f hf).beside hs)
  refine hs.trans ⟨fun q hq => hw.off q fun hp => hq ⟨f, hf, ?_⟩, fun q _ => ?_⟩
  · rwa [← hs.place_eq]
  · by_cases hp : s.tree.place cwd (sigOf f) = some q
    · exact hw.bare q hp
    · exact .inl (hw.off q hp)

theorem signFile_step : Tree.Beside (Places t cwd files) t (signFile o cwd KEY s f).tree ∧
    ((signFile o cwd KEY s f).status = 0 ↔ Signable o cwd KEY t f) ∧
    ∀ g, g ∈ (signFile o cwd KEY s f).signed ↔ g ∈ s.signed ∨ g = f ∧ Signable o cwd KEY t f := by
  have hv := sign_verdict ho hcwd ha hs hf
  have hb := sign_beside ho ha hs hf
  rw [Signable, ← hv]
  unfold signFile
  split
  · rename_i u he
    rw [he] at hb ⊢
    exact ⟨hb, by simp, fun g => by simp⟩
  · rename_i u he
    rw [he] at hb ⊢
    have hunl := (ha.unlinked f hf).beside hb
    refine ⟨rm_beside hb hunl fun p hp => ⟨f, hf, ?_⟩, by simp, fun g => by simp⟩
    rwa [hb.place_eq] at hp

theorem signFile_tree (hsig : Signable o cwd KEY t f) :
    (signFile o cwd KEY s f).tree = (o.sign cwd KEY (sigOf f) f s.tree).1 := by
  have hv := sign_verdict ho hcwd ha hs hf
  rw [Signable, ← hv] at hsig
  unfold signFile
  split
  · rename_i u he
    rw [he]
  · rename_i u he
    rw [he] at hsig
    cases hsig

theorem signFile_valid (hpair : pair (t.lead cwd KEY) (t.lead cwd PUBKEY))
    (hsig : Signable o cwd KEY t f) :
    Valid o cwd PUBKEY (signFile o cwd KEY s f).tree f := by
  have hv := sign_verdict ho hcwd ha hs hf
  rw [signFile_tree ho hcwd ha hs hf hsig]
  apply ho.signed cwd KEY PUBKEY (sigOf f) f s.tree (hs.dir hcwd) ((ha.unlinked f hf).beside hs)
  · intro r hr p hp
    have hrf : r ∈ KEY :: PUBKEY :: files := by
      simp only [List.mem_cons, List.not_mem_nil, or_false] at hr ⊢
      rcases hr with rfl | rfl | rfl
      · exact .inl rfl
      · exact .inr (.inl rfl)
      · exact .inr (.inr hf)
    have hlooks : ∀ q ∈ t.looks cwd r, ¬ Places t cwd files q := by
      rintro q hq ⟨g, hg, hq'⟩
      exact ha.clear g hg r hrf q hq' hq
    rw [hs.looks_eq hlooks]
    rw [hs.place_eq] at hp
    exact ha.clear f hf r hrf p hp
  · rw [lead_beside ha hcwd hs (by simp), lead_beside ha hcwd hs (by simp)]
    exact hpair
  · rw [hv]
    exact hsig

theorem signFile_keeps (hpair : pair (t.lead cwd KEY) (t.lead cwd PUBKEY))
    (hsig : Signable o cwd KEY t f) {g : Str} (hg : g ∈ files)
      (hval : Valid o cwd PUBKEY s.tree g) :
    Valid o cwd PUBKEY (signFile o cwd KEY s f).tree g := by
  have hstep := (signFile_step ho hcwd ha hs hf).1
  have hpub (u : Tree) (hu : Tree.Beside (Places t cwd files) t u) :
    u.lead cwd PUBKEY = t.lead cwd PUBKEY :=
    lead_beside ha hcwd hu (by simp)
  have hfile (u : Tree) (hu : Tree.Beside (Places t cwd files) t u) {r : Str} (hr : r ∈ files) :
      u.lead cwd r = t.lead cwd r := lead_beside ha hcwd hu (by simp [hr])
  by_cases hsame : ∃ p, t.place cwd (sigOf f) = some p ∧ t.place cwd (sigOf g) = some p
  · obtain ⟨p, hpf, hpg⟩ := hsame
    have hlead {r : Str} (hr : r ∈ files) (hp : t.place cwd (sigOf r) = some p) :
        (signFile o cwd KEY s f).tree.lead cwd (sigOf r) =
          (signFile o cwd KEY s f).tree.node p := by
      have hp' : (signFile o cwd KEY s f).tree.place cwd (sigOf r) = some p :=
        (hstep.place_eq _ _).trans hp
      exact Tree.lead_bare hp' ((ha.unlinked r hr).beside hstep p hp')
    have hread :=
      ho.reads cwd PUBKEY (sigOf g) g _ (sigOf f) f _ rfl ((hlead hg hpg).trans (hlead hf hpf).symm)
      (((hfile _ hstep hg).trans (ha.one g hg f hf p hpg hpf)).trans (hfile _ hstep hf).symm)
    exact hread.trans (signFile_valid ho hcwd ha hs hf hpair hsig)
  · have hw := ho.writes cwd KEY (sigOf f) f s.tree ((ha.unlinked f hf).beside hs)
    rw [← signFile_tree ho hcwd ha hs hf hsig] at hw
    have hlook : ∀ q ∈ s.tree.looks cwd (sigOf g), ¬ s.tree.place cwd (sigOf f) = some q := by
      intro q hq hpf
      cases hpg : s.tree.place cwd (sigOf g) with
      | none =>
          rw [Tree.looks_of_none hpg] at hq
          cases hq
      | some p =>
          rw [Tree.looks_of_place hpg, Tree.looksFrom_bare ((ha.unlinked g hg).beside hs p hpg),
            List.mem_singleton] at hq
          subst hq
          rw [hs.place_eq] at hpf hpg
          exact hsame ⟨q, hpf, hpg⟩
    have hread :=
      ho.reads cwd PUBKEY (sigOf g) g _ (sigOf g) g s.tree ((hpub _ hstep).trans (hpub _ hs).symm)
      (hw.lead_eq (hs.dir hcwd) hlook) ((hfile _ hstep hg).trans (hfile _ hs hg).symm)
    exact hread.trans hval

end

theorem signLoop_spec {fs : List Str} (hfs : ∀ f ∈ fs, f ∈ files) (s : Signing)
    (hs : Tree.Beside (Places t cwd files) t s.tree) :
    Tree.Beside (Places t cwd files) t (fs.foldl (signFile o cwd KEY) s).tree ∧
    (∀ l ∈ fs.getLast?, (fs.foldl (signFile o cwd KEY) s).status = 0 ↔ Signable o cwd KEY t l) ∧
    ∀ g, g ∈ (fs.foldl (signFile o cwd KEY) s).signed ↔ g ∈ s.signed ∨ g ∈ fs ∧
    Signable o cwd KEY t g := by
  induction fs using List.reverseRecOn with
  | nil => exact ⟨hs, by simp, by simp⟩
  | append_singleton fs f ih =>
      obtain ⟨hb, _, hsigned⟩ := ih fun g hg => hfs g (by simp [hg])
      obtain ⟨hb', hstatus, hsigned'⟩ := signFile_step ho hcwd ha hb (hfs f (by simp))
      rw [List.foldl_append, List.foldl_cons, List.foldl_nil]
      refine ⟨hb', by simpa using hstatus, fun g => ?_⟩
      rw [hsigned', hsigned, List.mem_append, List.mem_singleton]
      constructor
      · rintro ((h | ⟨h, hg⟩) | ⟨rfl, hg⟩)
        · exact .inl h
        · exact .inr ⟨.inl h, hg⟩
        · exact .inr ⟨.inr rfl, hg⟩
      · rintro (h | ⟨h | rfl, hg⟩)
        · exact .inl (.inl h)
        · exact .inl (.inr ⟨h, hg⟩)
        · exact .inr ⟨rfl, hg⟩

theorem signLoop_valid (hpair : pair (t.lead cwd KEY) (t.lead cwd PUBKEY)) {fs : List Str}
    (hfs : ∀ f ∈ fs, f ∈ files ∧ Signable o cwd KEY t f) (s : Signing)
    (hs : Tree.Beside (Places t cwd files) t s.tree) :
    ∀ f ∈ fs, Valid o cwd PUBKEY (fs.foldl (signFile o cwd KEY) s).tree f := by
  induction fs using List.reverseRecOn with
  | nil => simp
  | append_singleton fs f ih =>
      have hrest : ∀ g ∈ fs, g ∈ files ∧ Signable o cwd KEY t g := fun g hg => hfs g (by simp [hg])
      obtain ⟨hf, hsig⟩ := hfs f (by simp)
      obtain ⟨hb, _⟩ := signLoop_spec ho hcwd ha (fun g hg => (hrest g hg).1) s hs
      rw [List.foldl_append, List.foldl_cons, List.foldl_nil]
      intro g hg
      rcases List.mem_append.mp hg with hg | hg
      · exact signFile_keeps ho hcwd ha hb hf hpair hsig (hrest g hg).1 (ih hrest g hg)
      · rw [List.mem_singleton.mp hg]
        exact signFile_valid ho hcwd ha hb hf hpair hsig

end

theorem sigOf_oneWord {f : Str} (h : OneWord f) : OneWord (sigOf f) := by
  have hsuffix : OneWord sigSuffix := by decide
  refine ⟨by simp [sigOf, sigSuffix], fun c hc => ?_⟩
  rcases List.mem_append.mp hc with hc | hc
  · exact h.2 c hc
  · exact hsuffix.2 c hc

section

variable {o : Openssl} {pair : Option Node → Option Node → Prop} (ho : o.Correct pair) {t : Tree}
  {cwd : Loc} {KEY PUBKEY : Str} {files : List Str} (hcwd : t.node cwd = some .dir)
  (hpair : pair (t.lead cwd KEY) (t.lead cwd PUBKEY)) (hw : ∀ f ∈ files, OneWord f)
  (ha : Apart t cwd KEY PUBKEY files)
  (hsig : KEY ≠ [] → ∀ l ∈ files.getLast?, Signable o cwd KEY t l →
    ∀ f ∈ files, Signable o cwd KEY t f)
  (hstatus : (insignia o cwd KEY PUBKEY files t .sign).status = 0)

include ho hcwd hpair hw ha hsig hstatus

theorem sign_success :
    files ≠ [] ∧ ∀ f ∈ files, f ∈ (insignia o cwd KEY PUBKEY files t .sign).signed ∧
    Valid o cwd PUBKEY (insignia o cwd KEY PUBKEY files t .sign).tree f := by
  have hrun := insignia_sign o cwd KEY PUBKEY t hw
  by_cases hc : KEY = [] ∨ files = []
  · rw [hrun, if_pos hc] at hstatus
    cases hstatus
  · rw [hrun, if_neg hc] at hstatus ⊢
    rw [not_or] at hc
    obtain ⟨_, hlast, hsigned⟩ := signLoop_spec ho hcwd ha (fun f hf => hf) ⟨t, [], 0⟩ (.refl _ t)
    have hl := List.getLast?_eq_some_getLast hc.2
    have hall := hsig hc.1 _ hl ((hlast _ hl).mp hstatus)
    refine ⟨hc.2, fun f hf => ⟨(hsigned f).mpr (.inr ⟨hf, hall f hf⟩), ?_⟩⟩
    exact signLoop_valid ho hcwd ha hpair (fun g hg => ⟨hg, hall g hg⟩) ⟨t, [], 0⟩ (.refl _ t) f hf

theorem verify_success (hpub : PUBKEY ≠ []) : (insignia o cwd KEY PUBKEY (files.map sigOf)
    (insignia o cwd KEY PUBKEY files t .sign).tree .verify).status = 0 := by
  obtain ⟨hne, hvalid⟩ := sign_success ho hcwd hpair hw ha hsig hstatus
  rw [insignia_verify]
  · refine ⟨hpub, by simpa using hne, ?_, fun s hs => ?_⟩
    · obtain ⟨f, hf⟩ := List.exists_mem_of_ne_nil files hne
      exact ho.loads _ _ _ _ _ (hvalid f hf).2
    · obtain ⟨f, hf, rfl⟩ := List.mem_map.mp hs
      rw [dropExtension_sigOf]
      exact (hvalid f hf).2
  · intro s hs
    obtain ⟨f, hf, rfl⟩ := List.mem_map.mp hs
    rw [dropExtension_sigOf]
    exact ⟨sigOf_oneWord (hw f hf), (hw f hf).1⟩

end

/-- The exit status tells the truth exactly when no file before the last one fails alone. -/
theorem insignia_truthful_iff (o : Openssl) (pair : Option Node → Option Node → Prop)
    (ho : o.Correct pair) (t : Tree) (cwd : Loc) (KEY PUBKEY : Str) (files : List Str)
    (hcwd : t.node cwd = some .dir) (hpair : pair (t.lead cwd KEY) (t.lead cwd PUBKEY))
    (hw : ∀ f ∈ files, OneWord f) (ha : Apart t cwd KEY PUBKEY files) :
    Truthful o cwd KEY PUBKEY files t ↔
      (KEY ≠ [] → ∀ l ∈ files.getLast?, Signable o cwd KEY t l →
        ∀ f ∈ files, Signable o cwd KEY t f) := by
  constructor
  · intro hT hk l hl hlast f hf
    have hne : files ≠ [] := List.ne_nil_of_mem hf
    obtain ⟨_, hstatus, hsigned⟩ := signLoop_spec ho hcwd ha (fun f hf => hf) ⟨t, [], 0⟩ (.refl _ t)
    have hrun := insignia_sign o cwd KEY PUBKEY t hw
    rw [if_neg (not_or.mpr ⟨hk, hne⟩)] at hrun
    have hs := hT.signs
    rw [hrun] at hs
    have hmem := (hsigned f).mp (hs ((hstatus l hl).mpr hlast) f hf).1
    exact (hmem.resolve_left (by simp)).2
  · intro hsig
    refine ⟨fun h => (sign_success ho hcwd hpair hw ha hsig h).2, fun sigs hs h => ?_,
      fun hp h => verify_success ho hcwd hpair hw ha hsig h hp⟩
    exact ((insignia_verify o cwd KEY PUBKEY t hs).mp h).2.2.2

def content : Option Node → Option (List Str)
  | some (.file _ ls) => some ls
  | _ => none

def writeSignature (cwd : Loc) (key out file : Str) (t : Tree) : Option Tree :=
  (content (t.lead cwd key)).bind fun k => (content (t.lead cwd file)).bind fun m =>
    (t.place cwd out).bind fun p => t.put p (.file false (k ++ m))

def plainOpenssl : Openssl where
  pkey cwd pub t := (content (t.lead cwd pub)).isSome
  sign cwd key out file t :=
    ((writeSignature cwd key out file t).getD t, (writeSignature cwd key out file t).isSome)
  verify cwd pub sig files t := (content (t.lead cwd pub)).any fun k =>
    files.all fun file => (content (t.lead cwd file)).any fun m =>
      content (t.lead cwd sig) == some (k ++ m)

def samePair (a b : Option Node) : Prop := ∃ k, content a = some k ∧ content b = some k

theorem writeSignature_some {cwd : Loc} {key out file : Str} {t u : Tree} :
    writeSignature cwd key out file t = some u ↔ ∃ k m p, content (t.lead cwd key) = some k ∧
      content (t.lead cwd file) = some m ∧ t.place cwd out = some p ∧
      t.put p (.file false (k ++ m)) = some u := by
  simp only [writeSignature, Option.bind_eq_some_iff]
  constructor
  · rintro ⟨k, hk, m, hm, p, hp, hu⟩
    exact ⟨k, m, p, hk, hm, hp, hu⟩
  · rintro ⟨k, m, p, hk, hm, hp, hu⟩
    exact ⟨k, hk, m, hm, p, hp, hu⟩

theorem writeSignature_isSome (cwd : Loc) (key out file : Str) (t : Tree) :
    (writeSignature cwd key out file t).isSome = true ↔ (content (t.lead cwd key)).isSome = true ∧
      (content (t.lead cwd file)).isSome = true ∧ (t.place cwd out).map t.dirAt = some false := by
  rw [Option.isSome_iff_exists]
  constructor
  · rintro ⟨u, hu⟩
    obtain ⟨k, m, p, hk, hm, hp, hput⟩ := writeSignature_some.mp hu
    have hdir : t.dirAt p = false := by
      rw [← Bool.not_eq_true, Tree.dirAt_iff]
      exact (Tree.put_pre hput).1
    simp [hk, hm, hp, hdir]
  · rintro ⟨hk, hm, hd⟩
    obtain ⟨k, hk⟩ := Option.isSome_iff_exists.mp hk
    obtain ⟨m, hm⟩ := Option.isSome_iff_exists.mp hm
    obtain ⟨p, hp, hdir⟩ := Option.map_eq_some_iff.mp hd
    obtain ⟨ds, n, d, _, _, _, _, hnd, rfl⟩ := Tree.placeAt_iff.mp hp
    have hne : t.node (n :: d) ≠ some .dir := by
      rw [Ne, ← Tree.dirAt_iff, hdir]
      simp
    obtain ⟨u, hu⟩ := Tree.put_isSome (.file false (k ++ m)) hnd hne
    exact ⟨u, writeSignature_some.mpr ⟨k, m, _, hk, hm, hp, hu⟩⟩

theorem put_beside {t u : Tree} {p : Loc} {e : Bool} {ls : List Str}
    (hl : ∀ g, t.node p ≠ some (.link g)) (h : t.put p (.file e ls) = some u) :
    Tree.Beside (some p = some ·) t u := by
  refine ⟨fun q hq => ?_, fun q hq => .inr ?_⟩
  · rw [Tree.put_node h, if_neg]
    rintro rfl
    exact hq rfl
  · obtain rfl := Option.some.inj hq
    rw [Tree.put_node h, if_pos rfl]
    exact ⟨⟨(Tree.put_pre h).1, hl⟩, by simp, by simp⟩

theorem plainOpenssl_correct : plainOpenssl.Correct samePair where
  writes cwd key out file t hu := by
    show Tree.Beside _ t ((writeSignature cwd key out file t).getD t)
    cases hs : writeSignature cwd key out file t with
    | none => exact .refl _ t
    | some u =>
        obtain ⟨k, m, p, _, _, hp, hput⟩ := writeSignature_some.mp hs
        rw [hp]
        exact put_beside (hu p hp) hput
  verdict cwd key out file t out' file' t' _ _ hkey hfile hslot := by
    show (writeSignature cwd key out file t).isSome = (writeSignature cwd key out' file' t').isSome
    rw [Bool.eq_iff_iff, writeSignature_isSome, writeSignature_isSome, hkey, hfile, hslot]
  reads cwd pub sig file t sig' file' t' hpub hsig hfile := by
    simp only [plainOpenssl, hpub, hsig, List.all_cons, List.all_nil, hfile]
  signed cwd key pub out file t hcwd hu hclear hpair hs := by
    obtain ⟨u, hu'⟩ :=
      Option.isSome_iff_exists.mp (show (writeSignature cwd key out file t).isSome = true from hs)
    obtain ⟨k, m, p, hk, hm, hp, hput⟩ := writeSignature_some.mp hu'
    have hb := put_beside (hu p hp) hput
    have hlead : ∀ s ∈ [key, pub, file], u.lead cwd s = t.lead cwd s := by
      intro s hs
      apply hb.lead_eq hcwd
      intro q hq he
      exact hclear s hs q (hp.trans he) hq
    have hsig : u.lead cwd out = some (.file false (k ++ m)) := by
      have hnode : u.node p = some (.file false (k ++ m)) := by rw [Tree.put_node hput, if_pos rfl]
      rw [Tree.lead_bare ((hb.place_eq cwd out).trans hp) (by simp [hnode]), hnode]
    obtain ⟨k', hk', hpub⟩ := hpair
    rw [hk] at hk'
    obtain rfl := Option.some.inj hk'
    show plainOpenssl.verify cwd pub out [file] ((writeSignature cwd key out file t).getD t) = true
    rw [hu', Option.getD_some]
    have hcontent : content (u.lead cwd out) = some (k ++ m) := by
      rw [hsig]
      rfl
    simp [plainOpenssl, hlead pub (by simp), hlead file (by simp), hpub, hm, hcontent]
  loads cwd pub sig file t h := by
    obtain ⟨k, hk, _⟩ := (Option.any_eq_true _ _).mp h
    show (content (t.lead cwd pub)).isSome = true
    rw [hk]
    rfl

def apart (t : Tree) (cwd : Loc) (KEY PUBKEY : Str) (files : List Str) : Bool :=
  files.all fun f => (t.place cwd (sigOf f)).all fun p => !t.linkAt p &&
    ((KEY :: PUBKEY :: files).all fun s => !(t.looks cwd s).contains p) &&
    files.all fun g => f == g || t.place cwd (sigOf g) != some p

theorem apart_spec {t : Tree} {cwd : Loc} {KEY PUBKEY : Str} {files : List Str}
    (h : apart t cwd KEY PUBKEY files = true) : Apart t cwd KEY PUBKEY files := by
  have hall : ∀ f ∈ files, ∀ p, t.place cwd (sigOf f) = some p → t.linkAt p = false ∧
      (∀ s ∈ KEY :: PUBKEY :: files, p ∉ t.looks cwd s) ∧
      ∀ g ∈ files, f = g ∨ t.place cwd (sigOf g) ≠ some p := by
    intro f hf p hp
    have hf' := List.all_eq_true.mp h f hf
    rw [hp] at hf'
    simpa [and_assoc] using hf'
  refine ⟨fun f hf p hp => Tree.linkAt_false (hall f hf p hp).1, fun f hf s hs p hp =>
    (hall f hf p hp).2.1 s hs,
    fun f hf g hg p hp hp' => ?_⟩
  rcases (hall f hf p hp).2.2 g hg with rfl | hne
  · rfl
  · exact absurd hp' hne

def keyFile : Str := ['k']

def pubFile : Str := ['q']

def firstFile : Str := ['a']

def secondFile : Str := ['b']

def lostFile : Str := ['c']

def filesToSign : Tree :=
  Tree.ofList [([keyFile], .file false [['1']]), ([pubFile], .file false [['1']]),
  ([firstFile], .file false [['x']]), ([secondFile], .file false [['y']])]

theorem filesToSign_pair : samePair (filesToSign.lead [] keyFile) (filesToSign.lead [] pubFile) :=
  ⟨[['1']], by decide +kernel, by decide +kernel⟩

theorem insignia_truthful_iff_both :
    (insignia plainOpenssl [] keyFile pubFile [firstFile, secondFile] filesToSign .sign).status =
      0 ∧
    Truthful plainOpenssl [] keyFile pubFile [firstFile, secondFile] filesToSign := by
  refine ⟨by
    decide +kernel,
    (insignia_truthful_iff plainOpenssl samePair plainOpenssl_correct filesToSign [] keyFile
    pubFile [firstFile, secondFile] rfl filesToSign_pair (by decide)
      (apart_spec (by decide +kernel))).mpr ?_⟩
  have hfirst : Signable plainOpenssl [] keyFile filesToSign firstFile := by
    rw [Signable]
    decide +kernel
  have hsecond : Signable plainOpenssl [] keyFile filesToSign secondFile := by
    rw [Signable]
    decide +kernel
  intro _ l _ _ f hf
  rcases List.mem_pair.mp hf with rfl | rfl
  · exact hfirst
  · exact hsecond

/-- A file that cannot be signed goes unnoticed if it is not the last one. -/
theorem lost_file_unnoticed :
    ¬ ∀ (o : Openssl) (pair : Option Node → Option Node → Prop) (t : Tree) (cwd : Loc)
    (KEY PUBKEY : Str) (files : List Str), o.Correct pair → t.node cwd = some .dir →
    pair (t.lead cwd KEY) (t.lead cwd PUBKEY) → (∀ f ∈ files, OneWord f) →
    Apart t cwd KEY PUBKEY files →
    Truthful o cwd KEY PUBKEY files t := by
  intro h
  have hT :=
    h plainOpenssl samePair filesToSign [] keyFile pubFile [lostFile, firstFile]
    plainOpenssl_correct rfl
    filesToSign_pair (by decide) (apart_spec (by decide +kernel))
  have hstatus :
    (insignia plainOpenssl [] keyFile pubFile [lostFile, firstFile] filesToSign .sign).status =
    0 := by
    decide +kernel
  have hlost :
    lostFile ∉
    (insignia plainOpenssl [] keyFile pubFile [lostFile, firstFile] filesToSign .sign).signed := by
    decide +kernel
  exact hlost (hT.signs hstatus lostFile List.mem_cons_self).1

end Fidelix.Pkgtools.Insignia
