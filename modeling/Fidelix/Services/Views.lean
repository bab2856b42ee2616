import Fidelix.Services.Apart
import Fidelix.Services.Menu

namespace Fidelix.Services

open Text Files Pkgtools

/-- Init scripts on which the views agree: a script goes by its file name, its
priority has two characters, and no file name, read as a regular expression,
selects another. -/
structure Agreeable (vars : Vars) (t : Tree) : Prop where
  files : ∀ n, (t.node (n :: initdLoc)).isSome → WordName n ∧ visible n = true ∧
    ∃ e ls, t.node (n :: initdLoc) = some (.file e ls)
  plain : AllPlain vars t
  separate : Separate vars t
  same : ∀ svc s, scriptAt vars t svc = some s → s.known = svc
  twoChars : ∀ svc s, scriptAt vars t svc = some s → s.priority.length = 2
  described : ∀ svc s, scriptAt vars t svc = some s → '\\' ∉ s.hasDefaults.description ∧
    '\n' ∉ s.hasDefaults.description
  unlike : ∀ svc s svc' s', scriptAt vars t svc = some s → scriptAt vars t svc' = some s' →
    Resembles svc svc' → svc = svc'

/-- `service` and the menu show what `rc` does. -/
structure ViewsAgree (vars : Vars) (t : Tree) (svc : Str) : Prop where
  status : ∀ cwd, (svc_status vars t cwd svc).enabled = true ↔ svc :: initdLoc ∈ rc t
  terse : ∀ cwd, (svc_terse vars t cwd svc).enabled = true ↔ svc :: initdLoc ∈ rc t
  menu : ∀ cwd, marked t cwd svc = true ↔ svc :: initdLoc ∈ rc t

/-- The second state starts the service if the first does not, and the other way
round; the others are started as before. -/
def Flipped (t u : Tree) (svc : Str) : Prop :=
  (svc :: initdLoc ∈ rc u ↔ svc :: initdLoc ∉ rc t) ∧
    ∀ svc', svc' ≠ svc → (svc' :: initdLoc ∈ rc u ↔ svc' :: initdLoc ∈ rc t)

structure Toggles (vars : Vars) (t : Tree) (svc : Str) : Prop where
  listed : ∀ cwd, svc ∈ menuServices t cwd
  chosen : ∀ cwd n, (menuServices t cwd)[n]? = some svc → ∀ action, ∃ u a v b,
    choose vars cwd (n + 1) t action = some (u, a) ∧ Flipped t u svc ∧
    choose vars cwd (n + 1) u a = some (v, b) ∧ Flipped u v svc

structure Current (vars : Vars) (t : Tree) : Prop extends Ready vars t where
  agreeable : Agreeable vars t
  current : ∀ svc s m, scriptAt vars t svc = some s → m ∈ linksOf t svc → m = s.linkName

theorem Agreeable.only {vars : Vars} {t t' : Tree} (h : Agreeable vars t) (ho : OnlyLinks t t') :
    Agreeable vars t' where
  files n := by
    rw [ho _ (by simp [initdLoc, enabledLoc])]
    exact h.files n
  plain := h.plain.only ho
  separate := h.separate.only ho
  same svc s hs := h.same svc s (by rwa [ho.scriptAt vars] at hs)
  twoChars svc s hs := h.twoChars svc s (by rwa [ho.scriptAt vars] at hs)
  described svc s hs := h.described svc s (by rwa [ho.scriptAt vars] at hs)
  unlike svc s svc' s' hs hs' := by
    rw [ho.scriptAt vars] at hs hs'
    exact h.unlike svc s svc' s' hs hs'

theorem Current.step {vars : Vars} {t t' : Tree} (h : Current vars t) {c : Command} {s : Script}
    (hs : scriptAt vars t c.svc = some s) (he : Effect c.svc s c.action t t') :
    Current vars t' where
  toReady := h.toReady.step hs he
  agreeable := h.agreeable.only he.only
  current svc s' m hs' hm := by
    rw [he.only.scriptAt vars] at hs'
    by_cases hc : svc = c.svc
    · subst hc
      obtain rfl := Option.some.inj (hs.symm.trans hs')
      rw [he.mem_linksOf] at hm
      split at hm
      · rcases hm with rfl | hm
        · rfl
        · exact h.current _ _ m hs hm
      · exact h.current _ _ m hs hm.1
    · rw [(he.untouched hs h.apart hc).linksOf] at hm
      exact h.current svc s' m hs' hm

theorem Current.runAll {vars : Vars} {t u : Tree} (h : Current vars t) {cs : List Command}
    (hcs : ∀ c ∈ cs, (scriptAt vars t c.svc).isSome) (hr : Services.runAll vars cs t = some u) :
    Current vars u ∧ OnlyLinks t u := by
  induction cs generalizing t with
  | nil =>
      obtain rfl := Option.some.inj hr
      exact ⟨h, .refl t⟩
  | cons c cs ih =>
      obtain ⟨s, hs⟩ := Option.isSome_iff_exists.mp (hcs c (by simp))
      obtain ⟨v, hv, he⟩ := run_effect h.toTidy h.plain hs
      rw [Services.runAll, hv] at hr
      obtain ⟨hu, ho⟩ := ih (h.step hs he) (fun d hd => by
        rw [he.only.scriptAt vars]
        exact hcs d (by simp [hd])) hr
      exact ⟨hu, he.only.trans ho⟩

theorem resembles_dots (svc m : Str) : Resembles ('.' :: '.' :: svc) m ↔
    ∃ a b k, m = a :: b :: k ∧ Resembles svc k := by
  cases m with
  | nil => simp
  | cons a m =>
      cases m with
      | nil => simp
      | cons b k => simp

theorem length_two {p : Str} (h : p.length = 2) : ∃ a b, p = [a, b] := by
  match p, h with
  | [a, b], _ => exact ⟨a, b, rfl⟩

namespace Current

variable {vars : Vars} {t : Tree} (h : Current vars t) {svc : Str} {s : Script}
  (hs : scriptAt vars t svc = some s)
include h hs

theorem started_iff : svc :: initdLoc ∈ rc t ↔ s.linkName ∈ linksOf t svc := by
  rw [mem_rc h.toTidy h.plain]
  constructor
  · rintro ⟨m, hm⟩
    rwa [← h.current svc s m hs hm]
  · exact fun hm => ⟨_, hm⟩

theorem onBoot_started (cwd : Loc) : onBoot vars t cwd svc = true ↔ svc :: initdLoc ∈ rc t := by
  obtain ⟨hfile, hsafe, _, hknown, _, hshown⟩ := h.plain svc s hs
  rw [onBoot_iff h.toLayout h.entries hfile hs hsafe cwd hknown, h.started_iff hs]
  constructor
  · rintro ⟨m, hm⟩
    obtain ⟨hsome, _, hsuffix⟩ := mem_selected.mp hm
    obtain ⟨svc', s', hs', hl⟩ := owner_of_child h.toTidy ((t.mem_children _ m).mpr hsome)
    by_cases hne : svc = svc'
    · subst hne
      rwa [← h.current svc s m hs hl]
    · exact absurd hsuffix (h.apart svc s svc' m hs hne hl)
  · rintro ⟨x, hx, _⟩
    exact ⟨s.linkName, mem_selected.mpr ⟨by simp [hx], hshown, known_suffix_link s⟩⟩

theorem marked_started (cwd : Loc) : marked t cwd svc = true ↔ svc :: initdLoc ∈ rc t := by
  have hw := (h.plain svc s hs).file
  have hword : OneWord ('^' :: '.' :: '.' :: (svc ++ ['$'])) := by
    refine ⟨by simp, fun c hc => ?_⟩
    simp only [List.mem_cons, List.mem_append, List.not_mem_nil, or_false] at hc
    rcases hc with rfl | rfl | rfl | hc | rfl
    · decide
    · decide
    · decide
    · exact ⟨(hw.2 c hc).1, (hw.2 c hc).2.1⟩
    · decide
  have hspecial : ∀ c ∈ '.' :: '.' :: svc, special c = false := by
    intro c hc
    simp only [List.mem_cons] at hc
    rcases hc with rfl | rfl | hc
    · decide
    · decide
    · have hg := (hw.2 c hc).2.1
      simp only [globChar, Bool.or_eq_false_iff, beq_eq_false_iff_ne] at hg
      simp [special, hg.1.1, hg.2, (hw.2 c hc).2.2.2]
  have hst : t.stat cwd (path rcEnabled []) = some enabledLoc := by
    have hc : comps (path rcEnabled []) = [etcName, rcdName, enabledName] ++ [dot] := by decide
    rw [stat_absolute cwd rfl, Tree.stat, if_neg (by decide), start_nil, hc, Tree.statAt,
      List.getLast?_concat]
    simp only [true_or, if_true]
    apply Tree.Walks.eval
    apply Tree.Walks.down (by decide) (by decide) h.etc
    apply Tree.Walks.down (by decide) (by decide) h.rcd
    exact .down (by decide) (by decide) h.enabled (.stay .done)
  have hdir : t.dirAt enabledLoc = true := by simpa using h.enabled
  rw [marked, expand_oneWord t cwd hword, h.started_iff hs]
  simp only [Tree.ls, hst, Option.filter_some, hdir, if_true, List.any_eq_true, List.mem_filter]
  constructor
  · rintro ⟨m, ⟨hm, _⟩, hsearch⟩
    have hres := (search_anchored ('.' :: '.' :: svc) m hspecial).mp hsearch
    obtain ⟨a, b, k, rfl, hk⟩ := (resembles_dots svc m).mp hres
    obtain ⟨svc', s', hs', hl⟩ := owner_of_child h.toTidy hm
    have hname := h.current svc' s' _ hs' hl
    obtain ⟨c, d, hp⟩ := length_two (h.agreeable.twoChars svc' s' hs')
    rw [Script.linkName, hp, h.agreeable.same svc' s' hs', List.cons_append, List.cons_append,
      List.nil_append] at hname
    simp only [List.cons.injEq] at hname
    rw [hname.2.2] at hk
    obtain rfl := h.agreeable.unlike svc s svc' s' hs hs' hk
    have hcur := h.current svc s _ hs hl
    rwa [hcur] at hl
  · intro hl
    have hlink := hl
    obtain ⟨x, hx, _⟩ := hl
    have hm : s.linkName ∈ t.children enabledLoc := (t.mem_children _ _).mpr (by simp [hx])
    refine ⟨s.linkName, ⟨hm, ?_⟩, ?_⟩
    · exact (h.plain svc s hs).shown
    · apply (search_anchored ('.' :: '.' :: svc) _ hspecial).mpr
      apply (resembles_dots svc _).mpr
      obtain ⟨a, b, hp⟩ := length_two (h.agreeable.twoChars svc s hs)
      refine ⟨a, b, svc, ?_, resembles_self svc⟩
      rw [Script.linkName, hp, h.agreeable.same svc s hs]
      rfl

theorem viewsAgree : ViewsAgree vars t svc :=
  ⟨h.onBoot_started hs, h.onBoot_started hs, h.marked_started hs⟩

end Current

theorem escapes_plain (k : Nat) {s : Str} (h : '\\' ∉ s) : escapes k s = (s, false) := by
  induction k generalizing s with
  | zero => rfl
  | succ k ih =>
      cases s with
      | nil => rfl
      | cons c s =>
          simp only [List.mem_cons, not_or] at h
          rw [escapes, if_neg (Ne.symm h.1), ih h.2]

theorem escapes_append (a s : Str) (k : Nat) (h : '\\' ∉ a) :
    escapes (a.length + k) (a ++ s) = (a ++ (escapes k s).1, (escapes k s).2) := by
  induction a with
  | nil => simp
  | cons c a ih =>
      simp only [List.mem_cons, not_or] at h
      have hlen : (c :: a).length + k = (a.length + k) + 1 := by
        rw [List.length_cons]
        omega
      rw [hlen, List.cons_append, escapes, if_neg (Ne.symm h.1), ih h.2, List.cons_append]

theorem escapes_tab (k : Nat) (s : Str) :
    escapes (k + 1) ('\\' :: 't' :: s) = ('\t' :: (escapes k s).1, (escapes k s).2) := rfl

def entryText (i : Nat) (prompt svc description : Str) : Str :=
  [' ', ' ', ' ', ' ', ' '] ++ Nat.toDigits 10 i ++ '\t' ::
    (prompt ++ ' ' :: (svc ++ '\t' :: description))

theorem mem_toDigits {i : Nat} {c : Char} (h : c ∈ Nat.toDigits 10 i) :
    blank c = false ∧ c ≠ '\\' ∧ c ≠ '\n' := by
  have hd : c.isDigit = true := Nat.isDigit_of_mem_toDigits (by decide) (by decide) h
  have hne (d : Char) (hn : d.isDigit = false) : c ≠ d := by
    rintro rfl
    rw [hd] at hn
    simp at hn
  refine ⟨?_, hne _ rfl, hne _ rfl⟩
  simp only [blank, Bool.or_eq_false_iff, beq_eq_false_iff_ne]
  exact ⟨⟨hne _ rfl, hne _ rfl⟩, hne _ rfl⟩

theorem echoE_entry (i : Nat) {prompt svc description : Str} (hp : '\\' ∉ prompt) (hs : '\\' ∉ svc)
    (hd : '\\' ∉ description) :
    echoE ([' ', ' ', ' ', ' ', ' '] ++ Nat.toDigits 10 i ++ ['\\', 't'] ++ prompt ++ [' '] ++
      svc ++ ['\\', 't'] ++
      description) = entryText i prompt svc description ++ ['\n'] := by
  have hfirst : '\\' ∉ [' ', ' ', ' ', ' ', ' '] ++ Nat.toDigits 10 i := by
    intro h
    rcases List.mem_append.mp h with h | h
    · exact absurd h (by decide)
    · exact (mem_toDigits h).2.1 rfl
  have hsecond : '\\' ∉ prompt ++ ' ' :: svc := by simp [hp, hs]
  have hsplit : [' ', ' ', ' ', ' ', ' '] ++ Nat.toDigits 10 i ++ ['\\', 't'] ++ prompt ++ [' '] ++
    svc ++ ['\\', 't'] ++
      description = ([' ', ' ', ' ', ' ', ' '] ++ Nat.toDigits 10 i) ++
        '\\' :: 't' :: ((prompt ++ ' ' :: svc) ++ '\\' :: 't' :: description) := by simp
  -- the two steps over `\\t` need less fuel than there is
  obtain ⟨k, hk⟩ : ∃ k, (([' ', ' ', ' ', ' ', ' '] ++ Nat.toDigits 10 i) ++
      '\\' :: 't' :: ((prompt ++ ' ' :: svc) ++ '\\' :: 't' :: description)).length =
      ([' ', ' ', ' ', ' ', ' '] ++ Nat.toDigits 10 i).length +
        (((prompt ++ ' ' :: svc).length + (k + 1)) + 1) :=
    ⟨description.length + 2, by
      simp only [List.length_append, List.length_cons]
      omega⟩
  rw [hsplit, echoE, hk, escapes_append _ _ _ hfirst, escapes_tab,
    escapes_append _ _ _ hsecond, escapes_tab,
    escapes_plain k hd]
  simp [entryText]

theorem words_blanks {b : Str} (s : Str) (hb : b.all blank = true) : words (b ++ s) = words s := by
  induction b with
  | nil => rfl
  | cons c b ih =>
      rw [List.all_cons, Bool.and_eq_true] at hb
      rw [List.cons_append, words_cons _ hb.1, ih hb.2]

theorem words_entry (i : Nat) {prompt svc : Str} (description : Str)
    (hp : prompt ≠ [] ∧ ∀ c ∈ prompt, blank c = false)
      (hs : svc ≠ [] ∧ ∀ c ∈ svc, blank c = false) :
    words (entryText i prompt svc description) = Nat.toDigits 10 i :: prompt :: svc ::
      words description := by
  have hspace : blank ' ' = true := rfl
  have htab : blank '\t' = true := rfl
  have hdigits : ∀ c ∈ Nat.toDigits 10 i, blank c = false := fun c hc => (mem_toDigits hc).1
  rw [entryText, List.append_assoc, words_blanks _ (by decide),
    words_word _ _ Nat.toDigits_ne_nil hdigits htab,
    words_word _ _ hp.1 hp.2 hspace, words_word _ _ hs.1 hs.2 htab]

theorem entryText_line (i : Nat) {prompt svc description : Str} (hp : '\n' ∉ prompt)
    (hs : '\n' ∉ svc) (hd : '\n' ∉ description) : '\n' ∉ entryText i prompt svc description := by
  intro hc
  simp only [entryText, List.mem_append, List.mem_cons] at hc
  rcases hc with (hc | hc) | hc | hc | hc | hc | hc | hc
  · exact absurd hc (by decide)
  · exact (mem_toDigits hc).2.2 rfl
  · exact absurd hc (by decide)
  · exact hp hc
  · exact absurd hc (by decide)
  · exact hs hc
  · exact absurd hc (by decide)
  · exact hd hc

theorem echoed_cases (s : Str) : echoed s = [] ∨ echoed s = s := by
  unfold echoed
  split
  · split
    · exact .inl rfl
    · exact .inr rfl
  · exact .inr rfl

/-- What `svc_list` prints for each service. -/
def entryTexts (prompt description : Str → Str) : Nat → List Str → List Str
  | _, [] => []
  | i, svc :: svcs => entryText i (prompt svc) svc (description svc) ::
    entryTexts prompt description (i + 1) svcs

theorem entryTexts_get (prompt description : Str → Str) (svcs : List Str) (i n : Nat) :
    (entryTexts prompt description i svcs)[n]? =
      svcs[n]?.map fun svc => entryText (i + n) (prompt svc) svc (description svc) := by
  induction svcs generalizing i n with
  | nil => simp [entryTexts]
  | cons svc svcs ih =>
      cases n with
      | zero => simp [entryTexts]
      | succ n =>
          rw [entryTexts, List.getElem?_cons_succ, List.getElem?_cons_succ, ih]
          have hn : i + 1 + n = i + (n + 1) := by omega
          rw [hn]

namespace Current

variable {vars : Vars} {t : Tree} (h : Current vars t)
include h

theorem menuServices_eq (cwd : Loc) : menuServices t cwd =
    (t.children initdLoc).filter fun svc => (scriptAt vars t svc).isSome := by
  have hst : t.stat cwd svcdir = some initdLoc := by
    have hc : comps svcdir = [etcName] ++ [initdName] := by decide
    have hp : t.place [] svcdir = some initdLoc := place_real [etcName] hc (by decide) h.etc
    rw [stat_absolute cwd rfl, Tree.stat_of_place hp]
    exact Tree.deref_of_node h.initd (by simp)
  have hdir : t.dirAt initdLoc = true := by simpa using h.initd
  have hall (n : Str) (hn : n ∈ t.children initdLoc) :=
    h.agreeable.files n ((t.mem_children _ n).mp hn)
  have hls : t.ls cwd svcdir = t.children initdLoc := by
    simp only [Tree.ls, hst, Option.filter_some, hdir, if_true]
    apply List.filter_eq_self.mpr
    exact fun n hn => (hall n hn).2.1
  have hwords : (t.children initdLoc).flatMap (expand t cwd) = t.children initdLoc := by
    have he : ∀ n ∈ t.children initdLoc, expand t cwd n = [n] := fun n hn =>
      expand_oneWord t cwd ((hall n hn).1.2.oneWord (hall n hn).1.1.1)
    rw [List.flatMap_congr he, List.flatMap_singleton']
  rw [menuServices, hls, hwords]
  apply List.filter_congr
  intro n hn
  obtain ⟨hw, _, e, ls, hnode⟩ := hall n hn
  have hplace := place_script h.toLayout hw.1 cwd
  have hderef : t.stat cwd (path svcdir n) = some (n :: initdLoc) := by
    rw [Tree.stat_of_place hplace]
    exact Tree.deref_of_node hnode (by simp)
  have hnodir : t.dirAt (n :: initdLoc) = false := by
    rw [← Bool.not_eq_true, Tree.dirAt_iff, hnode]
    simp
  cases e with
  | true => simp [Tree.isExecutable, Tree.isExec, Tree.isDir, hderef, hnode, scriptAt]
  | false => simp [Tree.isExecutable, Tree.isExec, Tree.isDir, hderef, hnode, scriptAt, hnodir]

theorem menuServices_scripts {cwd : Loc} {svc : Str} (hm : svc ∈ menuServices t cwd) :
    ∃ s, scriptAt vars t svc = some s := by
  rw [h.menuServices_eq cwd, List.mem_filter] at hm
  exact Option.isSome_iff_exists.mp hm.2

def prompt (t : Tree) (cwd : Loc) (svc : Str) : Str := if marked t cwd svc then markOn else markOff

omit h in
theorem prompt_mark (t : Tree) (cwd : Loc) (svc : Str) :
    prompt t cwd svc ≠ [] ∧ (∀ c ∈ prompt t cwd svc, blank c = false) ∧ '\\' ∉ prompt t cwd svc ∧
      '\n' ∉ prompt t cwd svc := by
  rw [prompt]
  split
  · exact ⟨by decide, by simp [markOn, blank], by decide, by decide⟩
  · exact ⟨by decide, by simp [markOff, blank], by decide, by decide⟩

theorem menuText_lines (cwd : Loc) (svcs : List Str) (i : Nat)
    (hm : ∀ svc ∈ svcs, svc ∈ menuServices t cwd) :
    textLines (menuText vars t cwd i svcs) =
      entryTexts (prompt t cwd) (fun svc => ask vars t cwd svc .description) i svcs := by
  induction svcs generalizing i with
  | nil => rfl
  | cons svc svcs ih =>
      obtain ⟨s, hs⟩ := h.menuServices_scripts (hm svc (by simp))
      have hw := (h.plain svc s hs).file
      obtain ⟨_, _, hpb, hpn⟩ := prompt_mark t cwd svc
      have hd := h.agreeable.described svc s hs
      have hask : '\\' ∉ ask vars t cwd svc .description ∧
        '\n' ∉ ask vars t cwd svc .description := by
        rw [ask_script h.toLayout hw hs cwd, answer]
        split
        · rcases echoed_cases s.hasDefaults.description with he | he
          · simp [cc_get, he]
          · simpa [cc_get, he] using hd
        · simp
      have hback : '\\' ∉ svc := fun hc => (hw.2 _ hc).2.2.2 rfl
      have hnl : '\n' ∉ svc := fun hc => absurd (hw.2 _ hc).1 (by decide)
      have hentry : menuEntry vars t cwd i svc =
          entryText i (prompt t cwd svc) svc (ask vars t cwd svc .description) ++ ['\n'] :=
        echoE_entry i hpb hback hask.1
      have hline := entryText_line i hpn hnl hask.2
      rw [menuText, hentry, List.append_assoc, List.singleton_append, textLines_cons _ _ hline,
        ih (i + 1) fun d hd => hm d (by simp [hd])]
      rfl

theorem chosen_line {cwd : Loc} {n : Nat} {svc : Str} (hn : (menuServices t cwd)[n]? = some svc) :
    ((svc_list vars t cwd).take (n + 1)).getLastD [] =
      entryText (1 + n) (prompt t cwd svc) svc (ask vars t cwd svc .description) := by
  have hget : (svc_list vars t cwd)[n]? =
      some (entryText (1 + n) (prompt t cwd svc) svc (ask vars t cwd svc .description)) := by
    rw [svc_list, h.menuText_lines cwd _ 1 fun _ hm => hm, entryTexts_get, hn]
    rfl
  rw [List.getLastD_eq_getLast?, List.getLast?_take, if_neg (by omega), Nat.add_sub_cancel, hget]
  rfl

theorem choose_eq {cwd : Loc} {n : Nat} {svc : Str} (hn : (menuServices t cwd)[n]? = some svc)
    (action : Option Action) :
    choose vars cwd (n + 1) t action =
      (service vars cwd svc (if marked t cwd svc then .disable else .enable) t).map fun u =>
        (u, some (if marked t cwd svc then .disable else .enable)) := by
  obtain ⟨s, hs⟩ := h.menuServices_scripts (List.mem_of_getElem? hn)
  have hw := (h.plain svc s hs).file
  obtain ⟨hp, hpb, _, _⟩ := prompt_mark t cwd svc
  have hwords := words_entry (1 + n) (ask vars t cwd svc .description) ⟨hp, hpb⟩
    ⟨hw.1.1, fun c hc => (hw.2 c hc).1⟩
  have hlt : n < (menuServices t cwd).length := (List.getElem?_eq_some_iff.mp hn).1
  have hname :
    awkField 3 (entryText (1 + n) (prompt t cwd svc) svc (ask vars t cwd svc .description)) =
    svc := by
    rw [awkField, hwords]
    rfl
  have hstatus :
    awkField 2 (entryText (1 + n) (prompt t cwd svc) svc (ask vars t cwd svc .description)) =
      prompt t cwd svc := by
    rw [awkField, hwords]
    rfl
  have hoff : markOff ≠ markOn := by decide
  rw [choose, if_pos ⟨by omega, by omega⟩]
  simp only [h.chosen_line hn, hname, hstatus, hw.1.1, if_false]
  rw [prompt]
  by_cases hm : marked t cwd svc = true
  · simp only [hm, if_true]
  · simp only [hm, if_false, hoff, if_true, Bool.false_eq_true]

theorem flipped {cwd : Loc} {n : Nat} {svc : Str} (hn : (menuServices t cwd)[n]? = some svc)
    (action : Option Action) :
    ∃ u a, choose vars cwd (n + 1) t action = some (u, a) ∧ Flipped t u svc ∧ Current vars u ∧
      menuServices u cwd = menuServices t cwd := by
  obtain ⟨s, hs⟩ := h.menuServices_scripts (List.mem_of_getElem? hn)
  let c : Command := ⟨cwd, svc, if marked t cwd svc then .disable else .enable⟩
  obtain ⟨u, hu, he⟩ := run_effect h.toTidy h.plain (c := c) hs
  have hcur := h.step (c := c) hs he
  have hs' : scriptAt vars u svc = some s := by rw [he.only.scriptAt vars, hs]
  have hmenu : menuServices u cwd = menuServices t cwd := by
    have hch : u.children initdLoc = t.children initdLoc :=
      Tree.children_congr fun m => by rw [he.only _ (by simp [initdLoc, enabledLoc])]
    rw [hcur.menuServices_eq cwd, h.menuServices_eq cwd, hch]
    simp only [he.only.scriptAt vars]
  have hrun : service vars cwd svc (if marked t cwd svc then .disable else .enable) t = some u := hu
  refine ⟨u, _, by rw [h.choose_eq hn action, hrun]; rfl, ⟨?_, fun svc' hne => ?_⟩, hcur, hmenu⟩
  · rw [hcur.started_iff hs', ← h.marked_started hs cwd]
    have hmem := he.mem_linksOf s.linkName
    by_cases hm : marked t cwd svc = true
    · rw [hmem, if_neg (by simp [c, hm, enablesBy])]
      simp [hm, known_suffix_link s, (h.plain svc s hs).shown]
    · rw [hmem, if_pos (by simp [c, hm, enablesBy])]
      simp [hm]
  · rw [mem_rc h.toTidy h.plain, mem_rc hcur.toTidy hcur.plain,
      (he.untouched hs h.apart hne).linksOf]

theorem toggles {svc : Str} {s : Script} (hs : scriptAt vars t svc = some s) :
    Toggles vars t svc where
  listed cwd := by
    rw [h.menuServices_eq cwd, List.mem_filter]
    exact ⟨child_of_script hs, by simp [hs]⟩
  chosen cwd n hn action := by
    obtain ⟨u, a, hu, hflip, hcur, hmenu⟩ := h.flipped hn action
    obtain ⟨v, b, hv, hflip', _, _⟩ := hcur.flipped (by rwa [hmenu]) a
    exact ⟨u, a, v, b, hu, hflip, hv, hflip'⟩

end Current

theorem Current.start {vars : Vars} {t : Tree} (hl : Layout t) (he : t.children enabledLoc = [])
    (ha : Agreeable vars t) : Current vars t where
  toTidy := tidy_of_empty hl he
  plain := ha.plain
  separate := ha.separate
  apart := linksApart_of_empty he
  agreeable := ha
  current svc s m _ hm := by
    obtain ⟨x, hx, _⟩ := hm
    have hc := (t.mem_children enabledLoc m).mpr (by simp [hx])
    simp [he] at hc

/-- Wherever commands lead from an empty directory, `service`, the menu and `rc`
agree on every service, and the menu toggles it alone. -/
theorem views_agree (vars : Vars) (t u : Tree) (cs : List Command) (hl : Layout t)
    (he : t.children enabledLoc = []) (ha : Agreeable vars t)
    (hcs : ∀ c ∈ cs, (scriptAt vars t c.svc).isSome) (hr : runAll vars cs t = some u) (svc : Str)
    (hs : (scriptAt vars t svc).isSome) :
    ViewsAgree vars u svc ∧ Toggles vars u svc := by
  obtain ⟨hcur, ho⟩ := (Current.start hl he ha).runAll hcs hr
  obtain ⟨s, hs⟩ := Option.isSome_iff_exists.mp hs
  rw [← ho.scriptAt vars] at hs
  exact ⟨hcur.viewsAgree hs, hcur.toggles hs⟩

/-- A name in `/etc/init.d` that is fine, and the init script it stands for. -/
def AgreeableFile (vars : Vars) (t : Tree) (n : Str) : Prop :=
  WordName n ∧ visible n = true ∧
    (match t.node (n :: initdLoc) with | some (.file _ _) => true | _ => false) = true ∧
    ∀ s ∈ (scriptAt vars t n).toList, Plain n s ∧ s.known = n ∧ s.priority.length = 2 ∧
      '\\' ∉ s.hasDefaults.description ∧ '\n' ∉ s.hasDefaults.description

instance (vars : Vars) (t : Tree) (n : Str) : Decidable (AgreeableFile vars t n) :=
  inferInstanceAs (Decidable (_ ∧ _))

instance (p s : Str) : Decidable (Resembles p s) := inferInstanceAs (Decidable (List.Forall₂ _ p s))

theorem agreeable_of_children {vars : Vars} {t : Tree}
    (hfiles : ∀ n ∈ t.children initdLoc, AgreeableFile vars t n)
    (hpairs : ∀ svc ∈ t.children initdLoc, ∀ s ∈ (scriptAt vars t svc).toList,
      ∀ svc' ∈ t.children initdLoc, ∀ s' ∈ (scriptAt vars t svc').toList, svc ≠ svc' →
    ¬ s.known <:+ s'.linkName ∧ ¬ Resembles svc svc') :
    Agreeable vars t := by
  have hscript (svc : Str) (s : Script) (hs : scriptAt vars t svc = some s) :=
    (hfiles svc (child_of_script hs)).2.2.2 s (by simp [hs])
  have hpair (svc svc' : Str) (s s' : Script) (hs : scriptAt vars t svc = some s)
    (hs' : scriptAt vars t svc' = some s') :=
    hpairs svc (child_of_script hs) s (by simp [hs]) svc' (child_of_script hs') s' (by simp [hs'])
  refine ⟨fun n hn => ?_, fun svc s hs => (hscript svc s hs).1, fun svc s svc' s' hs hs' hne => ?_,
    fun svc s hs => (hscript svc s hs).2.1, fun svc s hs => (hscript svc s hs).2.2.1,
    fun svc s hs => (hscript svc s hs).2.2.2, fun svc s svc' s' hs hs' hr => ?_⟩
  · obtain ⟨hw, hv, hf, _⟩ := hfiles n ((t.mem_children initdLoc n).mpr hn)
    refine ⟨hw, hv, ?_⟩
    split at hf
    · exact ⟨_, _, ‹_›⟩
    · simp at hf
  · exact (hpair svc svc' s s' hs hs' hne).1
  · by_contra hne
    exact (hpair svc svc' s s' hs hs' hne).2 hr

theorem views_agree_crond :
    ∃ u, runAll sampleVars [⟨[], crond.1, .enable⟩] (sampleRoot [crond, syslogd]) = some u ∧
    ViewsAgree sampleVars u crond.1 ∧ Toggles sampleVars u crond.1 := by
  have hsome : (runAll sampleVars [⟨[], crond.1, .enable⟩] (sampleRoot [crond, syslogd])).isSome :=
    by decide +kernel
  obtain ⟨u, hu⟩ := Option.isSome_iff_exists.mp hsome
  have ha : Agreeable sampleVars (sampleRoot [crond, syslogd]) :=
    agreeable_of_children (by decide +kernel) (by decide +kernel)
  exact ⟨u, hu,
    views_agree sampleVars _ u _ ⟨rfl, rfl⟩ (by decide +kernel) ha (by decide +kernel) hu crond.1
    (by decide +kernel)⟩

def sshd : Str × Str × Str := (['s', 's', 'h'], ['s', 's', 'h', 'd'], ['5', '0'])

/-- The menu does not show that it is enabled. -/
theorem menu_misses_sshd :
    ¬ ∀ u, runAll sampleVars [⟨[], sshd.1, .enable⟩] (sampleRoot [sshd]) = some u →
    ViewsAgree sampleVars u sshd.1 := by
  intro h
  have hviews : (runAll sampleVars [⟨[], sshd.1, .enable⟩] (sampleRoot [sshd])).map (fun u =>
      (onBoot sampleVars u [] sshd.1, marked u [] sshd.1)) = some (true, false) := by decide +kernel
  obtain ⟨u, hu, hv⟩ := Option.map_eq_some_iff.mp hviews
  obtain ⟨hon, hoff⟩ := Prod.mk.inj hv
  obtain ⟨hstatus, _, hmenu⟩ := h u hu
  have hmarked := (hmenu []).mpr ((hstatus []).mp hon)
  rw [hoff] at hmarked
  simp at hmarked

end Fidelix.Services
