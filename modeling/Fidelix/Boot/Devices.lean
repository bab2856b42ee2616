import Fidelix.Boot.Listing
import Fidelix.Boot.Mounts

namespace Fidelix.Boot

open Text Files Services

theorem eq_replicate_append_newlines (s : Str) :
    ∃ k, s = (s.reverse.dropWhile (· == '\n')).reverse ++ List.replicate k '\n' := by
  refine ⟨(s.reverse.takeWhile (· == '\n')).length, ?_⟩
  have ht : s.reverse.takeWhile (· == '\n') =
    List.replicate (s.reverse.takeWhile (· == '\n')).length '\n' := by
    apply List.eq_replicate_of_mem
    intro c hc
    simpa using List.mem_takeWhile_imp hc
  have hs :=
    congrArg List.reverse (List.takeWhile_append_dropWhile (p := (· == '\n')) (l := s.reverse))
  rw [List.reverse_append, List.reverse_reverse] at hs
  conv_lhs => rw [← hs, ht]
  rw [List.reverse_replicate]

theorem splitOn_replicate (d : Char) (k : Nat) :
    (List.replicate k d).splitOn d = List.replicate (k + 1) [] := by
  induction k with
  | zero => simp
  | succ k ih =>
      have hs :=
        List.splitOn_append_cons_self_of_not_mem (show d ∉ ([] : Str) by simp) (List.replicate k d)
      rw [List.replicate_succ, List.replicate_succ (n := k + 1), ← ih]
      exact hs

theorem splitOn_append_replicate {d : Char} {u : Str} (hu : d ∉ u) (k : Nat) :
    (u ++ List.replicate k d).splitOn d = u :: List.replicate k [] := by
  cases k with
  | zero => simpa using List.splitOn_eq_singleton hu
  | succ k =>
      rw [List.replicate_succ, List.splitOn_append_cons_self_of_not_mem hu, splitOn_replicate]

theorem captured_iff {ls : List Str} (hl : ∀ l ∈ ls, '\n' ∉ l) {u : Str} (hu : u ≠ [])
    (hn : '\n' ∉ u) :
    captured ls = u ↔ ∃ rest, ls = u :: rest ∧ ∀ r ∈ rest, r = [] := by
  constructor
  · intro he
    obtain ⟨k, hk⟩ := eq_replicate_append_newlines (['\n'].intercalate ls)
    have hs : (['\n'].intercalate ls).splitOn '\n' = u :: List.replicate k [] := by
      rw [hk]
      rw [captured] at he
      rw [he]
      exact splitOn_append_replicate hn k
    have hne : ls ≠ [] := by
      intro h0
      rw [h0] at he
      exact hu he.symm
    rw [List.splitOn_intercalate '\n' hl hne] at hs
    exact ⟨_, hs, fun r hr => (List.mem_replicate.mp hr).2⟩
  · rintro ⟨rest, rfl, hr⟩
    have ht : ['\n'].intercalate (u :: rest) = u ++ List.replicate rest.length '\n' := by
      have hj : ∀ (v : Str) (rs : List Str), (∀ r ∈ rs, r = []) →
          ['\n'].intercalate (v :: rs) = v ++ List.replicate rs.length '\n' := by
        intro v rs
        induction rs generalizing v with
        | nil => simp [List.intercalate]
        | cons r rs ih =>
            intro h
            obtain rfl := h r (by simp)
            have hi := ih [] fun r hr => h r (List.mem_cons_of_mem _ hr)
            simp only [List.intercalate] at hi ⊢
            simp [hi, List.replicate_succ]
      exact hj u rest hr
    have hd : (u.reverse).dropWhile (· == '\n') = u.reverse := by
      obtain ⟨c, cs, hc⟩ := List.exists_cons_of_ne_nil (List.reverse_ne_nil_iff.mpr hu)
      have hm : c ∈ u := List.mem_reverse.mp (by rw [hc]; exact List.mem_cons_self)
      have hcn : (c == '\n') = false := by
        rw [beq_eq_false_iff_ne]
        rintro rfl
        exact hn hm
      rw [hc, List.dropWhile_cons, hcn]
      rfl
    have hdrop : ∀ k, (List.replicate k '\n' ++ u.reverse).dropWhile (· == '\n') = u.reverse := by
      intro k
      induction k with
      | zero => exact hd
      | succ k ih => simpa [List.replicate_succ] using ih
    rw [captured, ht, List.reverse_append, List.reverse_replicate, hdrop, List.reverse_reverse]

theorem mem_cutField {d c : Char} {n : Nat} {s : Str} (h : c ∈ cutField d n s) : c ∈ s := by
  rw [cutField] at h
  split at h
  · cases hg : (s.splitOn d)[n - 1]? with
    | none => simp [hg] at h
    | some e =>
        rw [hg, Option.getD_some] at h
        exact mem_of_mem_splitOn (List.mem_of_getElem? hg) h
  · exact h

def label (blkid : List BlockDevice) (dev : Str) : Str :=
  match reported blkid dev with
  | some u => uuidIs ++ u
  | none => dev

def Identifies (sys : System) (mode : Mode) (m : Mount) (f : Str) : Prop :=
  f = if mode.useuuid then label sys.blkid m.dev else m.dev

/-- The device comes through the shell as one word, in the pattern for `grep` too. -/
def Askable (sys : System) (m : Mount) : Prop :=
  sys.args (deviceOf sys m.dev) = [deviceOf sys m.dev] ∧
    sys.args ('^' :: deviceOf sys m.dev ++ [':']) = ['^' :: deviceOf sys m.dev ++ [':']]

instance (sys : System) (m : Mount) : Decidable (Askable sys m) :=
  inferInstanceAs (Decidable (sys.args (deviceOf sys m.dev) = [deviceOf sys m.dev] ∧
    sys.args ('^' :: deviceOf sys m.dev ++ [':']) = ['^' :: deviceOf sys m.dev ++ [':']]))

def Silent (g : Str × Str) : Prop := g.1 ≠ uuidName ∧ strays g.2 = []

def Hollow (g : Str × Str) : Prop := g.1 ≠ uuidName ∧ ∀ w ∈ strays g.2, cutField '\x22' 2 w = []

def Gives (u : Str) (g : Str × Str) : Prop :=
  g = (uuidName, u) ∨ g.1 ≠ uuidName ∧ ∃ w ws, strays g.2 = w :: ws ∧ cutField '\x22' 2 w = u ∧
    ∀ v ∈ ws, cutField '\x22' 2 v = []

def Traces (tags : List (Str × Str)) (u : Str) : Prop :=
  ∃ before g behind, tags = before ++ g :: behind ∧ (∀ x ∈ before, Silent x) ∧ Gives u g ∧
    ∀ x ∈ behind, Hollow x

def Traced (sys : System) (mode : Mode) (tags : Str → List (Str × Str)) (m : Mount) : Prop :=
  if mode.useuuid then
    match reported sys.blkid m.dev with
    | some u => Traces (tags (deviceOf sys m.dev)) u
    | none => m.dev = uuidIs
  else m.dev = devRoot → readlink sys.tree sys.cwd devRoot = ['r', 'o', 'o', 't']

def Emitted (pat : Str) (m : Mount) : Prop :=
  selects pat m.line = true ∧ m.type ∉ skipped ∧ cut pat m.dir ≠ devDir

theorem strays_proper {g : Str × Str} (h : '\n' ∉ g.2) {w : Str} (hw : w ∈ strays g.2) :
    '\n' ∉ w := by
  intro hn
  have hm := mem_of_mem_splitOn (List.mem_of_mem_tail (List.mem_filter.mp hw).1) hn
  simp [h] at hm

theorem tagReadings_proper {g : Str × Str} (h : '\n' ∉ g.2) {r : Str} (hr : r ∈ tagReadings g) :
    '\n' ∉ r := by
  rw [tagReadings, List.mem_append] at hr
  rcases hr with hr | hr
  · split at hr
    · rwa [List.mem_singleton.mp hr]
    · cases hr
  · obtain ⟨w, hw, rfl⟩ := List.mem_map.mp hr
    exact fun hn => strays_proper h hw (mem_cutField hn)

theorem mem_asked {blkid : List BlockDevice} {dev : Str} {g : Str × Str} (h : g ∈ asked blkid dev) :
    ∃ b ∈ blkid, g ∈ b.tags := by
  obtain ⟨b, hb, hg⟩ := List.mem_flatMap.mp h
  exact ⟨b, (List.mem_filter.mp hb).1, hg⟩

theorem get_disk_uuid_eq {sys : System} {m : Mount} (h : Askable sys m) (hb : Listing sys.blkid) :
    get_disk_uuid sys (sys.args (deviceOf sys m.dev)) =
      captured ((asked sys.blkid (deviceOf sys m.dev)).flatMap tagReadings) := by
  have hp : param (sys.args (deviceOf sys m.dev)) 0 = deviceOf sys m.dev := by
    rw [h.1]
    rfl
  rw [get_disk_uuid, hp, h.2, ← uuidTokens_eq hb]

theorem mem_of_lookup {tags : List (Str × Str)} {n u : Str} (h : tags.lookup n = some u) :
    (n, u) ∈ tags := by
  obtain ⟨l, l', rfl, _⟩ := List.lookup_eq_some_iff.mp h
  simp

theorem reported_proper {blkid : List BlockDevice} (hb : Listing blkid) {d u : Str}
    (h : reported blkid d = some u) :
    u ≠ [] ∧ '\n' ∉ u := by
  obtain ⟨b, hf, hu⟩ := Option.bind_eq_some_iff.mp h
  have hm := List.mem_of_find?_eq_some hf
  have hg := mem_of_lookup hu
  exact ⟨(hb.uuids b hm _ hg rfl).1, (hb.tags b hm _ hg).2.2.2⟩

theorem tagReadings_silent (g : Str × Str) : tagReadings g = [] ↔ Silent g := by
  by_cases hn : g.1 = uuidName <;> simp [tagReadings, Silent, hn]

theorem tagReadings_hollow {g : Str × Str} (hu : g.1 = uuidName → g.2 ≠ []) :
    (∀ r ∈ tagReadings g, r = []) ↔ Hollow g := by
  by_cases hn : g.1 = uuidName
  · simp [tagReadings, Hollow, hn, hu hn]
  · simp [tagReadings, Hollow, hn]

theorem strays_uuid {g : Str × Str} (h : ' ' ∉ g.2) : strays g.2 = [] := by
  rw [strays, List.splitOn_eq_singleton (by simpa using h)]
  rfl

theorem tagReadings_gives {g : Str × Str} (hu : g.1 = uuidName → ' ' ∉ g.2) (u : Str) :
    (∃ rest, tagReadings g = u :: rest ∧ ∀ r ∈ rest, r = []) ↔ Gives u g := by
  by_cases hn : g.1 = uuidName
  · have ht : tagReadings g = [g.2] := by
      rw [tagReadings, if_pos hn, strays_uuid (hu hn)]
      rfl
    constructor
    · rintro ⟨rest, hr, _⟩
      rw [ht] at hr
      exact .inl (Prod.ext hn (List.cons.inj hr).1)
    · rintro (rfl | ⟨hne, _⟩)
      · exact ⟨[], ht, by simp⟩
      · exact absurd hn hne
  · have ht : tagReadings g = (strays g.2).map (cutField '\x22' 2) := by
      rw [tagReadings, if_neg hn]
      rfl
    rw [ht]
    constructor
    · rintro ⟨rest, hr, he⟩
      obtain ⟨w, ws, hs, hw, rfl⟩ := List.map_eq_cons_iff.mp hr
      exact .inr ⟨hn, w, ws, hs, hw, fun v hv => he _ (List.mem_map_of_mem hv)⟩
    · rintro (rfl | ⟨_, w, ws, hs, hw, he⟩)
      · exact absurd rfl hn
      · refine ⟨ws.map (cutField '\x22' 2), by rw [hs, List.map_cons, hw], fun r hr => ?_⟩
        obtain ⟨v, hv, rfl⟩ := List.mem_map.mp hr
        exact he v hv

theorem flatMap_first_iff {α : Type} (f : α → List Str) (l : List α) (u : Str) :
    (∃ rest, l.flatMap f = u :: rest ∧ ∀ r ∈ rest, r = []) ↔
      ∃ before a behind, l = before ++ a :: behind ∧ (∀ x ∈ before, f x = []) ∧
        (∃ rest, f a = u :: rest ∧ ∀ r ∈ rest, r = []) ∧ ∀ x ∈ behind, ∀ r ∈ f x, r = [] := by
  constructor
  · intro h
    induction l with
    | nil =>
        obtain ⟨rest, hr, _⟩ := h
        cases hr
    | cons x l ih =>
        obtain ⟨rest, hr, he⟩ := h
        rw [List.flatMap_cons] at hr
        cases hx : f x with
        | nil =>
            rw [hx, List.nil_append] at hr
            obtain ⟨before, a, behind, rfl, hb, ha, hh⟩ := ih ⟨rest, hr, he⟩
            exact ⟨x :: before, a, behind, rfl, List.forall_mem_cons.mpr ⟨hx, hb⟩, ha, hh⟩
        | cons v vs =>
            rw [hx, List.cons_append] at hr
            obtain ⟨rfl, rfl⟩ := List.cons.inj hr
            refine ⟨[], x, l, rfl, by
              simp, ⟨vs, hx, fun r hm => he r (by simp [hm])⟩, fun y hy r hm => ?_⟩
            exact he r (List.mem_append_right _ (List.mem_flatMap.mpr ⟨y, hy, hm⟩))
  · rintro ⟨before, a, behind, rfl, hb, ⟨rest, ha, he⟩, hh⟩
    refine ⟨rest ++ behind.flatMap f, ?_, fun r hr => ?_⟩
    · rw [List.flatMap_append, List.flatMap_eq_nil_iff.mpr hb, List.flatMap_cons, ha]
      rfl
    · rcases List.mem_append.mp hr with hr | hr
      · exact he r hr
      · obtain ⟨y, hy, hm⟩ := List.mem_flatMap.mp hr
        exact hh y hy r hm

theorem captured_asked_iff {blkid : List BlockDevice} (hb : Listing blkid) (dev : Str) {u : Str}
    (hu : u ≠ []) (hn : '\n' ∉ u) :
    captured ((asked blkid dev).flatMap tagReadings) = u ↔ Traces (asked blkid dev) u := by
  have hl : ∀ l ∈ (asked blkid dev).flatMap tagReadings, '\n' ∉ l := by
    intro l hm
    obtain ⟨g, hg, hm⟩ := List.mem_flatMap.mp hm
    obtain ⟨b, hbm, hgb⟩ := mem_asked hg
    exact tagReadings_proper (hb.tags b hbm g hgb).2.2.2 hm
  have hg : ∀ g ∈ asked blkid dev, g.1 = uuidName → g.2 ≠ [] ∧ ' ' ∉ g.2 := by
    intro g hm hname
    obtain ⟨b, hbm, hgb⟩ := mem_asked hm
    obtain ⟨h1, h2, _⟩ := hb.uuids b hbm g hgb hname
    exact ⟨h1, h2⟩
  rw [captured_iff hl hu hn, flatMap_first_iff, Traces]
  apply exists_congr
  intro before
  apply exists_congr
  intro g
  apply exists_congr
  intro behind
  apply and_congr_right
  intro he
  have hgm : ∀ x ∈ g :: behind, x ∈ asked blkid dev := by
    intro x hx
    rw [he]
    exact List.mem_append_right _ hx
  refine and_congr ?_ (and_congr ?_ ?_)
  · exact forall₂_congr fun x _ => tagReadings_silent x
  · exact tagReadings_gives (fun hname => (hg g (hgm g (by simp)) hname).2) u
  · exact forall₂_congr fun x hx => tagReadings_hollow fun hname =>
      (hg x (hgm x (by simp [hx])) hname).1

theorem uuidless_iff {sys : System} {m : Mount} (hm : '\\' ∉ m.dev) (hb : Listing sys.blkid) :
    uuidIs ++ captured ((asked sys.blkid (deviceOf sys m.dev)).flatMap tagReadings) = m.dev ↔
    m.dev = uuidIs := by
  have hempty : ∀ s, m.dev = uuidIs ++ s →
    captured ((asked sys.blkid (deviceOf sys m.dev)).flatMap tagReadings) = [] := by
    intro s hs
    have hroot : m.dev ≠ devRoot := by
      rw [hs]
      exact fun he => by cases he
    have hbs : '\\' ∉ s := fun hc => hm (by simp [hs, hc])
    rw [deviceOf, if_neg hroot, hs, asked_uuid hb hbs]
    rfl
  constructor
  · intro he
    have h0 := hempty _ he.symm
    rw [h0, List.append_nil] at he
    exact he.symm
  · intro he
    rw [hempty [] (by simpa using he), List.append_nil, he]

theorem deviceOf_iff (sys : System) (dev : Str) :
    deviceOf sys dev = dev ↔
    (dev = devRoot → readlink sys.tree sys.cwd devRoot = ['r', 'o', 'o', 't']) := by
  rw [deviceOf]
  split
  · rename_i he
    simp [he, devRoot, devDir]
  · simp [*]

theorem identifies_iff {sys : System} {m : Mount} (hu : Undisturbed sys m) (h : Askable sys m)
    (hb : Listing sys.blkid) (mode : Mode) :
    Identifies sys mode m
      (if mode.useuuid then uuidIs ++ get_disk_uuid sys (sys.args (deviceOf sys m.dev))
        else deviceOf sys m.dev) ↔
      Traced sys mode (asked sys.blkid) m := by
  rw [Identifies, Traced, get_disk_uuid_eq h hb]
  cases mode.useuuid with
  | false => simpa using deviceOf_iff sys m.dev
  | true =>
      simp only [if_true]
      rw [label]
      cases hr : reported sys.blkid m.dev with
      | none =>
          have hm : '\\' ∉ m.dev := fun hc => (hu.whole '\\' (by simp [hc])).2 rfl
          exact uuidless_iff hm hb
      | some u =>
          obtain ⟨hu, hn⟩ := reported_proper hb hr
          simp only [List.append_cancel_left_eq]
          exact captured_asked_iff hb _ hu hn

def Named (sys : System) (mode : Mode) (root : Str) : Prop :=
  entries sys mode root = sys.table.filterMap (entryOf sys mode (sysroot sys root)) ∧
    ∀ m ∈ sys.table, ∀ e, entryOf sys mode (sysroot sys root) m = some e →
      Identifies sys mode m e.dev

theorem named_asked_iff {sys : System} (mode : Mode) (root : Str)
    (h : ∀ m ∈ sys.table, Undisturbed sys m ∧ Askable sys m) (hb : Listing sys.blkid) :
    Named sys mode root ↔
      ∀ m ∈ sys.table, Emitted (sysroot sys root) m → Traced sys mode (asked sys.blkid) m := by
  rw [Named, and_iff_right (entries_eq sys mode root fun m hm => (h m hm).1)]
  apply forall₂_congr
  intro m hm
  obtain ⟨hu, ha⟩ := h m hm
  rw [entryOf, loopBody_eq hu, ← identifies_iff hu ha hb mode]
  constructor
  · rintro hid ⟨hs, ht, hd⟩
    rw [if_pos hs, if_neg (by simp [ht, hd])] at hid
    exact hid _ rfl
  · intro hid e he
    split at he
    · rename_i hs
      split at he
      · cases he
      · rename_i hn
        obtain rfl := Option.some.inj he
        exact hid ⟨hs, not_or.mp hn⟩
    · cases he

theorem traced_congr {sys : System} {mode : Mode} {tags tags' : Str → List (Str × Str)} {m : Mount}
    (h : tags (deviceOf sys m.dev) = tags' (deviceOf sys m.dev)) :
    Traced sys mode tags m ↔ Traced sys mode tags' m := by
  rw [Traced, Traced, h]

/-- Every entry names the device that was mounted if and only if the tags that `grep` selects
for its source give the UUID of that source; for names that are no patterns, these are
the tags of the device itself. -/
theorem named_iff (sys : System) (mode : Mode) (root : Str)
    (h : ∀ m ∈ sys.table, Undisturbed sys m ∧ Askable sys m) (hb : Listing sys.blkid) :
    (Named sys mode root ↔
      ∀ m ∈ sys.table, Emitted (sysroot sys root) m → Traced sys mode (asked sys.blkid) m) ∧
    ((∀ m ∈ sys.table, ∀ c ∈ deviceOf sys m.dev, literal c = true ∧ c ≠ ' ') →
      (Named sys mode root ↔
        ∀ m ∈ sys.table, Emitted (sysroot sys root) m → Traced sys mode (tagsOf sys.blkid) m)) := by
  have hn := named_asked_iff mode root h hb
  refine ⟨hn, fun hlit => hn.trans ?_⟩
  apply forall₂_congr
  intro m hm
  apply imp_congr_right
  intro _
  exact traced_congr (asked_eq_tagsOf hb (hlit m hm))

def labelName : Str := ['L', 'A', 'B', 'E', 'L']

def diskDevice (n : Char) (name uuid : Str) : BlockDevice :=
  ⟨(diskMount n []).dev, [(labelName, name), (uuidName, uuid)]⟩

def homeDevices : List BlockDevice :=
  [diskDevice '2' ['r', 'o', 'o', 't', ' ', 'f', 's'] ['a', '1', '-', 'b', '2'],
    diskDevice '3' [] ['c', '3']]

theorem listing_homeDevices : Listing homeDevices :=
  ⟨by decide, by decide, by decide⟩

theorem named_iff_disk :
    Named (mounted [diskMount '2' mntDir] homeDevices) ⟨true, true⟩ mntDir := by
  have h : ∀ m ∈ [diskMount '2' mntDir],
    Undisturbed (mounted [diskMount '2' mntDir] homeDevices) m ∧
      Askable (mounted [diskMount '2' mntDir] homeDevices) m := by decide +kernel
  have hlit : ∀ m ∈ [diskMount '2' mntDir],
      ∀ c ∈ deviceOf (mounted [diskMount '2' mntDir] homeDevices) m.dev,
        literal c = true ∧ c ≠ ' ' := by
    intro m hm c hc
    obtain rfl := List.mem_singleton.mp hm
    have hd : deviceOf (mounted [diskMount '2' mntDir] homeDevices) (diskMount '2' mntDir).dev =
        (diskMount '2' mntDir).dev := by decide
    have ha : ((diskMount '2' mntDir).dev.all fun c => literal c && c != ' ') = true := rfl
    rw [hd] at hc
    simpa using List.all_eq_true.mp ha c hc
  apply ((named_iff _ _ _ h listing_homeDevices).2 hlit).mpr
  intro m hm _
  obtain rfl := List.mem_singleton.mp hm
  have hr : reported (mounted [diskMount '2' mntDir] homeDevices).blkid (diskMount '2' mntDir).dev =
      some ['a', '1', '-', 'b', '2'] := by decide
  have ht : tagsOf (mounted [diskMount '2' mntDir] homeDevices).blkid (diskMount '2' mntDir).dev =
      [(labelName, ['r', 'o', 'o', 't', ' ', 'f', 's']), (uuidName, ['a', '1', '-', 'b', '2'])] :=
        by decide
  rw [Traced, if_pos rfl, hr]
  refine ⟨[(labelName, ['r', 'o', 'o', 't', ' ', 'f', 's'])], (uuidName, ['a', '1', '-', 'b', '2']),
    [], ht, ?_, .inl rfl,
    by simp⟩
  intro x hx
  obtain rfl := List.mem_singleton.mp hx
  exact ⟨by decide, by decide⟩

def tmpfsMount : Mount :=
  ⟨['t', 'm', 'p', 'f', 's'], mntDir ++ ['/', 't', 'm', 'p'], ['t', 'm', 'p', 'f', 's'], ['r', 'w']⟩

/-- A file system without a device gets an empty UUID, and so does every source that
`blkid` does not list. -/
theorem not_named_tmpfs :
    ∃ sys mode root, (∀ m ∈ sys.table, Undisturbed sys m ∧ Askable sys m) ∧ Listing sys.blkid ∧
    ¬ Named sys mode root ∧ (entries sys mode root).map Entry.dev = [uuidIs] := by
  have h : ∀ m ∈ [tmpfsMount], Undisturbed (mounted [tmpfsMount] homeDevices) m ∧
      Askable (mounted [tmpfsMount] homeDevices) m := by decide +kernel
  have he : (entries (mounted [tmpfsMount] homeDevices) ⟨true, true⟩ mntDir).map Entry.dev =
    [uuidIs] := by decide +kernel
  refine ⟨mounted [tmpfsMount] homeDevices, ⟨true, true⟩, mntDir, h, listing_homeDevices, ?_, he⟩
  rintro ⟨heq, hid⟩
  have hs :
    ((entryOf (mounted [tmpfsMount] homeDevices) ⟨true, true⟩ mntDir tmpfsMount).map Entry.dev) =
    some uuidIs := by
    decide +kernel
  obtain ⟨e, hent, hdev⟩ := Option.map_eq_some_iff.mp hs
  have hroot : sysroot (mounted [tmpfsMount] homeDevices) mntDir = mntDir := by decide +kernel
  have hf := hid tmpfsMount (by simp [mounted]) e (hroot ▸ hent)
  rw [Identifies, hdev] at hf
  exact absurd hf (by decide)

end Fidelix.Boot
