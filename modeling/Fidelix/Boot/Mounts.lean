import Fidelix.Boot.Genfstab

namespace Fidelix.Boot

open Text Files Services

theorem words_unwords (ws : List Str) (h : ∀ w ∈ ws, w ≠ [] ∧ ∀ c ∈ w, blank c = false) :
    words (unwords ws) = ws := by
  induction ws with
  | nil => rfl
  | cons w ws ih =>
      obtain ⟨hw, hb⟩ := h w (by simp)
      cases ws with
      | nil => simpa [unwords, List.intercalate] using words_eq_singleton w hw hb
      | cons v ws =>
          have hs : unwords (w :: v :: ws) = w ++ ' ' :: unwords (v :: ws) :=
            by simp [unwords, List.intercalate]
          rw [hs, words_word w _ hw hb rfl, ih fun u hu => h u (List.mem_cons_of_mem _ hu)]

theorem not_mem_unwords {c : Char} (hc : c ≠ ' ') {ws : List Str} (h : ∀ w ∈ ws, c ∉ w) :
    c ∉ unwords ws := by
  induction ws with
  | nil => simp [unwords, List.intercalate]
  | cons w ws ih =>
      have hw := h w (by simp)
      have hi := ih fun u hu => h u (List.mem_cons_of_mem _ hu)
      cases ws with
      | nil => simpa [unwords, List.intercalate] using hw
      | cons v ws =>
          have hs : unwords (w :: v :: ws) = w ++ ' ' :: unwords (v :: ws) :=
            by simp [unwords, List.intercalate]
          rw [hs, List.mem_append, List.mem_cons]
          rintro (hm | hm | hm)
          · exact hw hm
          · exact hc hm
          · exact hi hm

def Mount.fields (m : Mount) : List Str :=
  [m.dev, onWord, m.dir, typeWord, m.type, '(' :: m.opts ++ [')']]

/-- A mount whose line comes through `read` and `echo` as it is: its fields have no
blanks and no backslashes, its device is no option of `echo`, and no word of the line
is a pattern for file names. -/
structure Undisturbed (sys : System) (m : Mount) : Prop where
  named : m.dev ≠ [] ∧ m.dir ≠ [] ∧ m.type ≠ []
  whole : ∀ c ∈ m.dev ++ m.dir ++ m.type ++ m.opts, blank c = false ∧ c ≠ '\\'
  printed : echoed m.dev ≠ []
  unmatched : expand sys.tree sys.cwd m.line = words m.line

instance (sys : System) (m : Mount) : Decidable (Undisturbed sys m) :=
  decidable_of_iff ((m.dev ≠ [] ∧ m.dir ≠ [] ∧ m.type ≠ []) ∧
    ((m.dev ++ m.dir ++ m.type ++ m.opts).all fun c => !blank c && c != '\\') = true ∧
      echoed m.dev ≠ [] ∧
    expand sys.tree sys.cwd m.line = words m.line) <| by
  constructor
  · rintro ⟨h1, h2, h3, h4⟩
    exact ⟨h1, fun c hc => by simpa using List.all_eq_true.mp h2 c hc, h3, h4⟩
  · rintro ⟨h1, h2, h3, h4⟩
    exact ⟨h1, List.all_eq_true.mpr fun c hc => by simpa using h2 c hc, h3, h4⟩

namespace Undisturbed

variable {sys : System} {m : Mount} (h : Undisturbed sys m)
include h

theorem field {w : Str} (hw : w ∈ m.fields) : w ≠ [] ∧ ∀ c ∈ w, blank c = false ∧ c ≠ '\\' := by
  obtain ⟨h1, h2, h3⟩ := h.named
  have hc := h.whole
  simp only [List.mem_append] at hc
  simp only [Mount.fields, List.mem_cons, List.not_mem_nil, or_false] at hw
  rcases hw with rfl | rfl | rfl | rfl | rfl | rfl
  · exact ⟨h1, fun c hm => hc c (.inl (.inl (.inl hm)))⟩
  · simp [onWord, blank]
  · exact ⟨h2, fun c hm => hc c (.inl (.inl (.inr hm)))⟩
  · simp [typeWord, blank]
  · exact ⟨h3, fun c hm => hc c (.inl (.inr hm))⟩
  · refine ⟨by simp, fun c hm => ?_⟩
    simp only [List.cons_append, List.mem_cons, List.mem_append, List.not_mem_nil, or_false] at hm
    rcases hm with rfl | hm | rfl
    · decide
    · exact hc c (.inr hm)
    · decide

theorem words_line : words m.line = m.fields :=
  words_unwords m.fields fun _ hw => ⟨(h.field hw).1, fun c hc => ((h.field hw).2 c hc).1⟩

theorem echo : sys.echo m.line = m.line := by
  have hd : echoWords m.fields = m.fields := by simp [echoWords, Mount.fields, h.printed]
  rw [System.echo, h.unmatched, h.words_line, hd]
  rfl

theorem verbatim : Verbatim m.line := by
  have hline : m.line = m.dev ++ ' ' ::
    (unwords [onWord, m.dir, typeWord, m.type, '(' :: m.opts] ++ [')']) := by
    simp [Mount.line, unwords, List.intercalate]
  refine ⟨fun hm => ?_, fun c hc => ?_, fun c hc => ?_⟩
  · exact not_mem_unwords (by decide) (fun w hw hb => ((h.field hw).2 _ hb).2 rfl) hm
  · obtain ⟨d, ds, hd⟩ := List.exists_cons_of_ne_nil h.named.1
    rw [hline, hd, List.cons_append, List.head?_cons, Option.mem_some_iff] at hc
    subst hc
    exact ((h.field (w := m.dev) (by simp [Mount.fields])).2 d (by simp [hd])).1
  · rw [hline, ← List.cons_append, ← List.append_assoc, List.getLast?_concat,
      Option.mem_some_iff] at hc
    subst hc
    rfl

end Undisturbed

def cut (root dir : Str) : Str := orElse (withoutRoot root dir) ['/']

def entryOf (sys : System) (mode : Mode) (root : Str) (m : Mount) : Option Entry :=
  if selects root m.line then loopBody sys mode root m.line else none

theorem entries_eq (sys : System) (mode : Mode) (root : Str)
    (h : ∀ m ∈ sys.table, Undisturbed sys m) :
    entries sys mode root = sys.table.filterMap (entryOf sys mode (sysroot sys root)) := by
  have hv : ∀ l ∈ (sys.table.map Mount.line).filter (selects (sysroot sys root)), Verbatim l := by
    intro l hl
    obtain ⟨m, hm, rfl⟩ := List.mem_map.mp (List.mem_filter.mp hl).1
    exact (h m hm).verbatim
  rw [entries, readLines_verbatim _ hv, List.filterMap_filter, List.filterMap_map]
  rfl

theorem loopBody_eq {sys : System} {m : Mount} (h : Undisturbed sys m) (mode : Mode) (root : Str) :
    loopBody sys mode root m.line =
      if m.type ∈ skipped ∨ cut root m.dir = devDir then none
      else some ⟨if mode.useuuid then uuidIs ++ get_disk_uuid sys (sys.args (deviceOf sys m.dev))
        else deviceOf sys m.dev,
        cut root m.dir, m.type,
        get_options sys mode (sys.args (cut root m.dir) ++ sys.args ('(' :: m.opts ++ [')'])),
          deviceOf sys m.dev⟩ := by
  have hf : ∀ n, awkField n m.line = (m.fields[n - 1]?).getD [] := by
    intro n
    rw [awkField, h.words_line]
  simp only [loopBody, h.echo, hf]
  rfl

def rootOf (root : Str) : Str := (root.reverse.dropWhile (· == '/')).reverse

def Below (root dir : Str) : Prop := dir = root ∨ root ++ ['/'] <+: dir

instance (root dir : Str) : Decidable (Below root dir) :=
  inferInstanceAs (Decidable (dir = root ∨ root ++ ['/'] <+: dir))

def Listed (root : Str) (m : Mount) : Prop :=
  m.type ∉ skipped ∧ Below root m.dir ∧ m.dir ≠ root ++ devDir

instance (root : Str) (m : Mount) : Decidable (Listed root m) :=
  inferInstanceAs (Decidable (m.type ∉ skipped ∧ Below root m.dir ∧ m.dir ≠ root ++ devDir))

def relative (root dir : Str) : Str := orElse (dir.drop root.length) ['/']

theorem relative_slash {root dir : Str} (h : Below root dir) :
    (relative root dir).head? = some '/' := by
  rcases h with rfl | ⟨s, rfl⟩
  · simp [relative, orElse]
  · simp [relative, orElse]

theorem relative_ne_dev {root : Str} {m : Mount} (h : Listed root m) :
    relative root m.dir ≠ devDir := by
  obtain ⟨_, hb, hd⟩ := h
  intro he
  apply hd
  rcases hb with hb | ⟨s, hs⟩
  · rw [relative, hb, List.drop_length] at he
    cases he
  · rw [relative, ← hs, orElse] at he
    simp at he
    rw [← hs, List.append_assoc, List.singleton_append, he]

def Lists (sys : System) (mode : Mode) (root : Str) : Prop :=
  entries sys mode root = sys.table.filterMap (entryOf sys mode (sysroot sys root)) ∧
    ∀ m ∈ sys.table, (entryOf sys mode (sysroot sys root) m).map Entry.dir =
      if Listed (rootOf root) m then some (relative (rootOf root) m.dir) else none

/-- `grep` selects the line exactly if the mount is below the root, and `sed` takes
just the root from its mountpoint. -/
def Told (root pat : Str) (m : Mount) : Prop :=
  m.type ∈ skipped ∨
    if Listed root m then selects pat m.line = true ∧ cut pat m.dir = relative root m.dir
    else selects pat m.line = true → cut pat m.dir = devDir

theorem entryOf_dir_iff {sys : System} {m : Mount} (h : Undisturbed sys m) (mode : Mode)
    (root pat : Str) :
    (entryOf sys mode pat m).map Entry.dir =
      (if Listed root m then some (relative root m.dir) else none) ↔
      Told root pat m := by
  rw [entryOf, loopBody_eq h, Told]
  by_cases hs : m.type ∈ skipped
  · have hl : ¬ Listed root m := fun hl => hl.1 hs
    simp [hs, hl]
  · by_cases hl : Listed root m
    · have hd := relative_ne_dev hl
      simp only [hs, hl, false_or, if_true]
      constructor
      · intro he
        split at he
        · rename_i hsel
          split at he
          · cases he
          · exact ⟨hsel, Option.some.inj he⟩
        · cases he
      · rintro ⟨hsel, hc⟩
        rw [if_pos hsel, hc, if_neg hd]
        rfl
    · simp only [hs, hl, false_or, if_false, Option.map_eq_none_iff]
      constructor
      · intro he hsel
        rw [if_pos hsel] at he
        by_contra hc
        rw [if_neg hc] at he
        cases he
      · intro hc
        split
        · rename_i hsel
          rw [if_pos (hc hsel)]
        · rfl

/-- A root without blanks and characters special to the shell, `grep` or `sed`, and with
one slash at its end at most. -/
structure PlainRoot (root : Str) : Prop where
  absolute : root.head? = some '/'
  plain : ∀ c ∈ root, literal c = true ∧ blank c = false ∧ globChar c = false ∧ c ≠ '@'
  single : rootOf root = root ∨ rootOf root ++ ['/'] = root

instance (root : Str) : Decidable (PlainRoot root) :=
  decidable_of_iff (root.head? = some '/' ∧
    (root.all fun c => literal c && !blank c && !globChar c && c != '@') = true ∧
      (rootOf root = root ∨ rootOf root ++ ['/'] = root)) <| by
  constructor
  · rintro ⟨h1, h2, h3⟩
    exact ⟨h1, fun c hc => by simpa [and_assoc] using List.all_eq_true.mp h2 c hc, h3⟩
  · rintro ⟨h1, h2, h3⟩
    exact ⟨h1, List.all_eq_true.mpr fun c hc => by simpa [and_assoc] using h2 c hc, h3⟩

theorem rootOf_getLast (root : Str) : (rootOf root).getLast? ≠ some '/' := by
  rw [rootOf, List.getLast?_reverse]
  intro h
  have hf := List.head?_dropWhile_not (· == '/') root.reverse
  rw [h] at hf
  simp at hf

theorem mem_rootOf {root : Str} {c : Char} (h : c ∈ rootOf root) : c ∈ root := by
  have hs := (List.dropWhile_sublist (· == '/') (l := root.reverse)).subset (List.mem_reverse.mp h)
  exact List.mem_reverse.mp hs

namespace PlainRoot

variable {root : Str} (h : PlainRoot root)
include h

theorem ne_nil : root ≠ [] := by
  intro he
  have ha := h.absolute
  rw [he] at ha
  cases ha

theorem sysroot_eq (sys : System) : sysroot sys root = rootOf root := by
  have he : sys.echo root = root := by
    have ho : OneWord root := ⟨h.ne_nil, fun c hc => ⟨(h.plain c hc).2.1, (h.plain c hc).2.2.1⟩⟩
    have hp : echoed root ≠ [] := by
      obtain ⟨c, cs, hc⟩ := List.exists_cons_of_ne_nil h.ne_nil
      have ha := h.absolute
      rw [hc, List.head?_cons, Option.some.injEq] at ha
      simp [hc, ha, echoed]
    rw [System.echo, expand_oneWord _ _ ho]
    simp [echoWords, hp, unwords]
  rw [sysroot, he]
  rcases h.single with hr | hr
  · have hl : root.getLast? ≠ some '/' := by
      rw [← hr]
      exact rootOf_getLast root
    simp [hl, hr]
  · have hl : root.getLast? = some '/' := by
      rw [← hr, List.getLast?_concat]
    have hd : root.dropLast = rootOf root := by
      conv_lhs => rw [← hr]
      exact List.dropLast_concat
    simp [hl, hd]

theorem root_literal : ∀ c ∈ rootOf root, literal c = true :=
  fun c hc => (h.plain c (mem_rootOf hc)).1

theorem root_blank : ' ' ∉ rootOf root := by
  intro hm
  have hb := (h.plain _ (mem_rootOf hm)).2.1
  cases hb

theorem root_slash (hr : rootOf root ≠ []) : ∃ s, rootOf root = '/' :: s := by
  obtain ⟨c, s, hc⟩ := List.exists_cons_of_ne_nil hr
  have ha := h.absolute
  rcases h.single with he | he
  · rw [← he, hc, List.head?_cons, Option.some.injEq] at ha
    exact ⟨s, by rw [hc, ha]⟩
  · rw [← he, hc, List.cons_append, List.head?_cons, Option.some.injEq] at ha
    exact ⟨s, by rw [hc, ha]⟩

theorem cut_eq {dir : Str} (hd : rootOf root <+: dir) :
    cut (rootOf root) dir = relative (rootOf root) dir := by
  have ha : '@' ∉ rootOf root := fun hm => (h.plain _ (mem_rootOf hm)).2.2.2 rfl
  rw [cut, withoutRoot, if_neg ha, compile_caret _ h.root_literal]
  simp only [longest_caret _ _ h.root_literal, hd, if_true, Option.getD_some]
  rfl

end PlainRoot

theorem splitOn_mid (a w b : Str) (hw : ' ' ∉ w) :
    (a ++ ' ' :: (w ++ ' ' :: b)).splitOn ' ' = a.splitOn ' ' ++ w :: b.splitOn ' ' := by
  have ha : (a ++ ' ' :: (w ++ ' ' :: b)).splitOn ' ' = a.splitOn ' ' ++
    (w ++ ' ' :: b).splitOn ' ' :=
    List.splitOnP_append_cons a _ (by decide)
  rw [ha, List.splitOn_append_cons_self_of_not_mem hw b]

theorem splitOn_head (w b : Str) (hw : ' ' ∉ w) :
    ∃ c rest, (w ++ b).splitOn ' ' = (w ++ c) :: rest := by
  by_cases hb : ' ' ∈ b
  · obtain ⟨c, d, rfl, hc⟩ := List.eq_append_cons_of_mem hb
    refine ⟨c, d.splitOn ' ', ?_⟩
    rw [← List.append_assoc, List.splitOn_append_cons_self_of_not_mem]
    simp [hw, hc]
  · refine ⟨b, [], ?_⟩
    rw [List.splitOn_eq_singleton]
    simp [hw, hb]

theorem splitOn_unwords (ws : List Str) (hne : ws ≠ []) (h : ∀ w ∈ ws, ' ' ∉ w) :
    (unwords ws).splitOn ' ' = ws :=
  List.splitOn_intercalate ' ' h hne

theorem selects_iff {sys : System} {m : Mount} (hm : Undisturbed sys m) {root : Str}
    (h : PlainRoot root) :
    selects (rootOf root) m.line = true ↔ rootOf root <+: m.dir := by
  have hlit : ∀ c ∈ ' ' :: onWord ++ ' ' :: rootOf root, literal c = true := by
    intro c hc
    simp only [onWord, List.cons_append, List.nil_append, List.mem_cons] at hc
    rcases hc with rfl | rfl | rfl | rfl | hc
    · decide
    · decide
    · decide
    · decide
    · exact h.root_literal c hc
  rw [selects, List.cons_append,
    search_literal ' ' (onWord ++ ' ' :: rootOf root) m.line (by decide) hlit]
  constructor
  · rintro ⟨a, b, hab⟩
    by_cases hr : rootOf root = []
    · rw [hr]
      exact List.nil_prefix
    · obtain ⟨s, hs⟩ := h.root_slash hr
      have hfields : m.line.splitOn ' ' = m.fields := by
        apply splitOn_unwords m.fields (by simp [Mount.fields])
        intro w hw hb
        have hf := ((hm.field hw).2 _ hb).1
        cases hf
      have hsplit : m.line.splitOn ' ' = a.splitOn ' ' ++ onWord ::
        (rootOf root ++ b).splitOn ' ' := by
        rw [← hab, ← splitOn_mid a onWord _ (by decide)]
        simp
      obtain ⟨c, rest, hc⟩ := splitOn_head (rootOf root) b h.root_blank
      rw [hfields, hc, hs, Mount.fields] at hsplit
      obtain ⟨x, xs, hx⟩ := List.exists_cons_of_ne_nil (List.splitOn_ne_nil ' ' a)
      rw [hx] at hsplit
      replace hsplit := (List.cons.inj hsplit).2
      -- the word before the match can be no other `on` than the first one
      rcases xs with _ | ⟨x1, _ | ⟨x2, _ | ⟨x3, _ | ⟨x4, xs⟩⟩⟩⟩
      · have hd := (List.cons.inj (List.cons.inj hsplit).2).1
        rw [hs, hd]
        exact List.prefix_append _ _
      · simp [onWord, typeWord] at hsplit
      · simp [onWord, typeWord] at hsplit
      · simp [onWord, typeWord] at hsplit
      · have hlen := congrArg List.length hsplit
        simp at hlen
        omega
  · rintro ⟨e, he⟩
    refine ⟨m.dev, e ++ ' ' :: unwords [typeWord, m.type, '(' :: m.opts ++ [')']], ?_⟩
    simp [Mount.line, unwords, List.intercalate, ← he]

def NoSibling (root : Str) (table : List Mount) : Prop :=
  ∀ m ∈ table, m.type ∉ skipped → root <+: m.dir → Below root m.dir

instance (root : Str) (table : List Mount) : Decidable (NoSibling root table) :=
  inferInstanceAs (Decidable (∀ m ∈ table, m.type ∉ skipped → root <+: m.dir → Below root m.dir))

theorem told_iff {sys : System} {m : Mount} (hm : Undisturbed sys m) {root : Str}
    (h : PlainRoot root) :
    Told (rootOf root) (rootOf root) m ↔
    (m.type ∉ skipped → rootOf root <+: m.dir → Below (rootOf root) m.dir) := by
  rw [Told, selects_iff hm h]
  by_cases hs : m.type ∈ skipped
  · simp [hs]
  · by_cases hl : Listed (rootOf root) m
    · have hp : rootOf root <+: m.dir := by
        rcases hl.2.1 with he | he
        · rw [he]
        · exact (List.prefix_append _ _).trans he
      simp [hs, hl, hp, hl.2.1, h.cut_eq hp]
    · simp only [hs, hl, false_or, if_false, not_false_eq_true, true_imp_iff]
      constructor
      · intro hc hp
        have hd := hc hp
        obtain ⟨s, hdir⟩ := hp
        rw [h.cut_eq ⟨s, hdir⟩, relative, ← hdir, List.drop_left, orElse] at hd
        split at hd
        · cases hd
        · rw [← hdir, hd]
          exact .inr ⟨_, by rw [List.append_assoc]; rfl⟩
      · intro hb hp
        have hdev : m.dir = rootOf root ++ devDir := by
          by_contra hne
          exact hl ⟨hs, hb hp, hne⟩
        rw [h.cut_eq hp, relative, hdev, List.drop_left]
        rfl

theorem Lists.slash {sys : System} {mode : Mode} {root : Str} (h : Lists sys mode root) {e : Entry}
    (he : e ∈ entries sys mode root) : e.dir.head? = some '/' := by
  rw [h.1, List.mem_filterMap] at he
  obtain ⟨m, hm, he⟩ := he
  have hd := h.2 m hm
  rw [he, Option.map_some] at hd
  split at hd
  · rename_i hl
    rw [Option.some.inj hd]
    exact relative_slash hl.2.1
  · cases hd

def mntDir : Str := ['/', 'm', 'n', 't']

def diskMount (n : Char) (dir : Str) : Mount :=
  ⟨['/', 'd', 'e', 'v', '/', 's', 'd', 'a'] ++ [n], dir, ['e', 'x', 't', '4'], ['r', 'w']⟩

def mounted (table : List Mount) (blkid : List BlockDevice) : System :=
  ⟨Tree.ofList [], [], table, blkid⟩

def homeTable : List Mount :=
  [diskMount '1' ['/'], diskMount '2' mntDir, diskMount '3' (mntDir ++ ['/', 'h', 'o', 'm', 'e']),
    ⟨procType, mntDir ++ '/' :: procType, procType, ['r', 'w']⟩]

end Fidelix.Boot
