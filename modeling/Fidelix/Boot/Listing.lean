import Fidelix.Boot.Genfstab

namespace Fidelix.Boot

open Text Files Services

def uuidName : Str := ['U', 'U', 'I', 'D']

/-- The UUID that `blkid` reports for a device. -/
def reported (blkid : List BlockDevice) (dev : Str) : Option Str :=
  (blkid.find? fun b => b.dev = dev).bind fun b => b.tags.lookup uuidName

/-- A listing as `blkid` prints it. The text of a label is not restricted, line ends apart. -/
structure Listing (blkid : List BlockDevice) : Prop where
  devices : ∀ b ∈ blkid, b.dev.head? = some '/' ∧ ' ' ∉ b.dev ∧ ':' ∉ b.dev ∧ '\n' ∉ b.dev
  tags : ∀ b ∈ blkid, ∀ g ∈ b.tags, ' ' ∉ g.1 ∧ '=' ∉ g.1 ∧ '\n' ∉ g.1 ∧ '\n' ∉ g.2
  uuids : ∀ b ∈ blkid, ∀ g ∈ b.tags, g.1 = uuidName → g.2 ≠ [] ∧ ' ' ∉ g.2 ∧ '\x22' ∉ g.2

/-- The words of a value behind its first blank that `grep ^UUID=` takes for a UUID. -/
def strays (value : Str) : List Str :=
  ((value ++ ['\x22']).splitOn ' ').tail.filter (uuidIs.isPrefixOf ·)

/-- What `get_disk_uuid` prints of a tag. -/
def tagReadings (g : Str × Str) : List Str :=
  (if g.1 = uuidName then [g.2] else []) ++ (strays g.2).map (cutField '\x22' 2)

/-- The tags in the lines that `grep ^dev:` selects. -/
def asked (blkid : List BlockDevice) (dev : Str) : List (Str × Str) :=
  (blkid.filter fun b => search ('^' :: dev ++ [':']) b.line).flatMap BlockDevice.tags

def tagsOf (blkid : List BlockDevice) (dev : Str) : List (Str × Str) :=
  (blkid.filter fun b => b.dev = dev).flatMap BlockDevice.tags

theorem uuidIs_eq : uuidIs = uuidName ++ ['='] := rfl

theorem literal_uuid : ∀ c ∈ uuidIs, literal c = true :=
  List.all_eq_true.mp (show uuidIs.all literal = true from rfl)

theorem splitOn_append {d : Char} {p s v : Str} {vs : List Str} (hp : d ∉ p)
    (hs : s.splitOn d = v :: vs) :
    (p ++ s).splitOn d = (p ++ v) :: vs := by
  induction p with
  | nil => exact hs
  | cons c p ih =>
      have hc : (c == d) = false := by
        rw [beq_eq_false_iff_ne]
        rintro rfl
        exact hp List.mem_cons_self
      rw [List.cons_append, List.splitOn_cons_eq_if_modifyHead, hc, ih fun hm =>
        hp (List.mem_cons_of_mem c hm)]
      rfl

theorem splitOn_flatMap {α : Type} (d : Char) (w : α → Str) (s : Str) (gs : List α) :
    (s ++ gs.flatMap fun g => d :: w g).splitOn d = s.splitOn d ++ gs.flatMap fun g =>
      (w g).splitOn d := by
  induction gs generalizing s with
  | nil => simp
  | cons g gs ih =>
      rw [List.flatMap_cons, List.cons_append, List.splitOn_append_cons_self, ih, List.flatMap_cons]

theorem splitOn_line {b : BlockDevice} (hb : ' ' ∉ b.dev) : b.line.splitOn ' ' =
    (b.dev ++ [':']) :: b.tags.flatMap fun g =>
      (g.1 ++ ['=', '\x22'] ++ g.2 ++ ['\x22']).splitOn ' ' := by
  have hd : (b.dev ++ [':']).splitOn ' ' = [b.dev ++ [':']] :=
    List.splitOn_eq_singleton (by simp [hb])
  have hl : b.line =
      (b.dev ++ [':']) ++ b.tags.flatMap fun g =>
        ' ' :: (g.1 ++ ['=', '\x22'] ++ g.2 ++ ['\x22']) := by
    simp [BlockDevice.line]
  rw [hl, splitOn_flatMap, hd]
  rfl

theorem search_uuid (w : Str) : search ('^' :: uuidIs) w = uuidIs.isPrefixOf w := by
  rw [Bool.eq_iff_iff, search_caret _ _ literal_uuid, List.isPrefixOf_iff_prefix]

theorem append_cons_inj {d : Char} {a a' s s' : Str} (ha : d ∉ a) (ha' : d ∉ a')
    (h : a ++ d :: s = a' ++ d :: s') :
    a = a' ∧ s = s' := by
  have hc := congrArg (cutField d 1) h
  rw [cutField_one d a s ha, cutField_one d a' s' ha'] at hc
  subst hc
  exact ⟨rfl, (List.cons.inj (List.append_cancel_left h)).2⟩

theorem uuid_prefix_iff {name s : Str} (hn : '=' ∉ name) :
    uuidIs <+: name ++ '=' :: s ↔ name = uuidName := by
  constructor
  · rintro ⟨t, ht⟩
    rw [uuidIs_eq, List.append_assoc, List.singleton_append] at ht
    exact (append_cons_inj (by decide) hn ht).1.symm
  · rintro rfl
    exact ⟨s, by simp [uuidIs_eq]⟩

theorem cutField_two (d : Char) (a v s : Str) (ha : d ∉ a) (hv : d ∉ v) :
    cutField d 2 (a ++ d :: (v ++ d :: s)) = v := by
  rw [cutField, if_pos (by simp), List.splitOn_append_cons_self_of_not_mem ha,
    List.splitOn_append_cons_self_of_not_mem hv]
  rfl

theorem tag_readings {g : Str × Str} (hb : ' ' ∉ g.1) (he : '=' ∉ g.1)
    (hu : g.1 = uuidName → ' ' ∉ g.2 ∧ '\x22' ∉ g.2) :
    (((g.1 ++ ['=', '\x22'] ++ g.2 ++ ['\x22']).splitOn ' ').filter (search ('^' :: uuidIs))).map
      (cutField '\x22' 2) = tagReadings g := by
  obtain ⟨v, vs, hv⟩ := List.exists_cons_of_ne_nil (List.splitOn_ne_nil ' ' (g.2 ++ ['\x22']))
  have hp : ' ' ∉ g.1 ++ ['=', '\x22'] := by simp [hb]
  have hsplit := splitOn_append hp hv
  rw [← List.append_assoc] at hsplit
  have hs : strays g.2 = vs.filter (uuidIs.isPrefixOf ·) := by rw [strays, hv, List.tail_cons]
  have hf : vs.filter (search ('^' :: uuidIs)) = vs.filter (uuidIs.isPrefixOf ·) :=
    List.filter_congr fun w _ => search_uuid w
  rw [hsplit, List.filter_cons, hf, search_uuid, tagReadings, hs]
  by_cases hn : g.1 = uuidName
  · have hpre : uuidIs.isPrefixOf (g.1 ++ ['=', '\x22'] ++ v) = true := by
      rw [List.isPrefixOf_iff_prefix, List.append_assoc]
      exact (uuid_prefix_iff he).mpr hn
    -- the UUID has no blanks, so that the whole value is in the first token
    obtain ⟨rfl, rfl⟩ : v = g.2 ++ ['\x22'] ∧ vs = [] := by
      rw [List.splitOn_eq_singleton (by simpa using (hu hn).1)] at hv
      exact ⟨(List.cons.inj hv).1.symm, (List.cons.inj hv).2.symm⟩
    have hcut : cutField '\x22' 2 (g.1 ++ ['=', '\x22'] ++ (g.2 ++ ['\x22'])) = g.2 := by
      have hq : '\x22' ∉ g.1 ++ ['='] := by
        rw [hn]
        decide
      simpa using cutField_two '\x22' (g.1 ++ ['=']) g.2 [] hq (hu hn).2
    rw [hpre, if_pos rfl, if_pos hn, List.map_cons, hcut]
    rfl
  · have hpre : uuidIs.isPrefixOf (g.1 ++ ['=', '\x22'] ++ v) = false := by
      rw [Bool.eq_false_iff, Ne, List.isPrefixOf_iff_prefix, List.append_assoc]
      exact fun h => hn ((uuid_prefix_iff he).mp h)
    rw [hpre, if_neg Bool.false_ne_true, if_neg hn]
    rfl

theorem uuidTokens_eq {blkid : List BlockDevice} (hb : Listing blkid) (dev : Str) :
    (uuidTokens ('^' :: dev ++ [':']) (blkid.map BlockDevice.line)).map (cutField '\x22' 2) =
      (asked blkid dev).flatMap tagReadings := by
  have hline :
    ∀ b ∈ blkid, ((b.line.splitOn ' ').filter (search ('^' :: uuidIs))).map (cutField '\x22' 2) =
      b.tags.flatMap tagReadings := by
    intro b hm
    obtain ⟨hs, hd, _⟩ := hb.devices b hm
    have hfirst : search ('^' :: uuidIs) (b.dev ++ [':']) = false := by
      rw [search_uuid, Bool.eq_false_iff, Ne, List.isPrefixOf_iff_prefix]
      rintro ⟨t, ht⟩
      have := congrArg List.head? ht
      rw [List.head?_append, List.head?_append, hs] at this
      cases this
    rw [splitOn_line hd, List.filter_cons, hfirst, if_neg Bool.false_ne_true, List.filter_flatMap,
      List.map_flatMap]
    apply List.flatMap_congr
    intro g hg
    obtain ⟨h1, h2, _⟩ := hb.tags b hm g hg
    exact tag_readings h1 h2 fun hn => (hb.uuids b hm g hg hn).2
  rw [uuidTokens, asked, List.filter_map, List.flatMap_map, List.filter_flatMap, List.map_flatMap,
    List.flatMap_assoc]
  exact List.flatMap_congr fun b hm => hline b (List.mem_filter.mp hm).1

theorem search_device {b : BlockDevice} (hb : ':' ∉ b.dev) {dev : Str}
    (hd : ∀ c ∈ dev, literal c = true ∧ c ≠ ' ') :
    search ('^' :: dev ++ [':']) b.line = true ↔ b.dev = dev := by
  have hlit : ∀ c ∈ dev ++ [':'], literal c = true := by
    intro c hc
    rcases List.mem_append.mp hc with hc | hc
    · exact (hd c hc).1
    · obtain rfl := List.mem_singleton.mp hc
      decide
  rw [List.cons_append, search_caret _ _ hlit, BlockDevice.line]
  generalize htags : (b.tags.flatMap fun g => ' ' :: g.1 ++ ['=', '\x22'] ++ g.2 ++ ['\x22']) = tags
  constructor
  · rintro ⟨t, ht⟩
    rw [List.append_assoc, List.singleton_append] at ht
    have hcol : ':' ∉ dev := by
      intro hm
      obtain ⟨x, y, rfl, hx⟩ := List.eq_append_cons_of_mem hm
      rw [List.append_assoc, List.cons_append] at ht
      obtain ⟨rfl, hy⟩ := append_cons_inj hx hb ht
      -- behind the colon of the line there is a blank or nothing
      have hhead : ∀ c ∈ tags.head?, c = ' ' := by
        rw [← htags]
        cases b.tags <;> simp
      rw [← hy] at hhead
      cases y with
      | nil => exact absurd (hhead ':' rfl) (by decide)
      | cons c y =>
          obtain rfl := hhead c rfl
          exact (hd ' ' (by simp)).2 rfl
    exact (append_cons_inj hcol hb ht).1.symm
  · rintro rfl
    exact ⟨tags, by simp⟩

theorem asked_eq_tagsOf {blkid : List BlockDevice} (hb : Listing blkid) {dev : Str}
    (hd : ∀ c ∈ dev, literal c = true ∧ c ≠ ' ') : asked blkid dev = tagsOf blkid dev := by
  rw [asked, tagsOf, List.filter_congr]
  intro b hm
  rw [Bool.eq_iff_iff, search_device (hb.devices b hm).2.2.1 hd, decide_eq_true_iff]

theorem asked_uuid {blkid : List BlockDevice} (hb : Listing blkid) {s : Str} (hs : '\\' ∉ s) :
    asked blkid (uuidIs ++ s) = [] := by
  rw [asked, List.filter_eq_nil_iff.mpr, List.flatMap_nil]
  intro b hm hsel
  have hp : '\\' ∉ ['I', 'D', '='] ++ s ++ [':'] := by simp [hs]
  obtain ⟨u, hu⟩ := search_head (c := 'U') (d := 'U') (by decide) (by decide) hp hsel
  have hh := (hb.devices b hm).1
  rw [BlockDevice.line] at hu
  have hl := congrArg List.head? hu
  rw [List.head?_append, hh] at hl
  cases hl

end Fidelix.Boot
