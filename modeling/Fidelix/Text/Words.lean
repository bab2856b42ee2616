import Mathlib

namespace Fidelix.Text

abbrev Str := List Char

instance : LawfulBEq Str := inferInstance

/-- The characters of the default `IFS`. -/
def blank (c : Char) : Bool := c == ' ' || c == '\t' || c == '\n'

def words (s : Str) : List Str := (s.splitOnP blank).filter (· ≠ [])

/-- The order in which `ls` and `sort` print names. -/
def notAfter : Str → Str → Bool
  | [], _ => true
  | _ :: _, [] => false
  | a :: s, b :: u => a.toNat < b.toNat || (a == b && notAfter s u)

theorem notAfter_cons (a b : Char) (s u : Str) :
    notAfter (a :: s) (b :: u) = true ↔ a.toNat < b.toNat ∨ a = b ∧ notAfter s u = true := by
  simp [notAfter]

theorem notAfter_total (s u : Str) : notAfter s u = true ∨ notAfter u s = true := by
  induction s generalizing u with
  | nil => exact .inl (by simp [notAfter])
  | cons a s ih =>
      cases u with
      | nil => exact .inr (by simp [notAfter])
      | cons b u =>
          rw [notAfter_cons, notAfter_cons]
          rcases lt_trichotomy a.toNat b.toNat with h | h | h
          · exact .inl (.inl h)
          · have hab : a = b := Char.ext (UInt32.toNat_inj.mp h)
            rcases ih u with hi | hi
            · exact .inl (.inr ⟨hab, hi⟩)
            · exact .inr (.inr ⟨hab.symm, hi⟩)
          · exact .inr (.inl h)

theorem notAfter_trans {s u v : Str} (h : notAfter s u = true) (h' : notAfter u v = true) :
    notAfter s v = true := by
  induction s generalizing u v with
  | nil => simp [notAfter]
  | cons a s ih =>
      cases u with
      | nil => simp [notAfter] at h
      | cons b u =>
          cases v with
          | nil => simp [notAfter] at h'
          | cons c v =>
              rw [notAfter_cons] at h h' ⊢
              rcases h with h | ⟨rfl, h⟩
              · rcases h' with h' | ⟨rfl, _⟩
                · exact .inl (lt_trans h h')
                · exact .inl h
              · rcases h' with h' | ⟨rfl, h'⟩
                · exact .inl h'
                · exact .inr ⟨rfl, ih h h'⟩

theorem notAfter_antisymm {s u : Str} (h : notAfter s u = true) (h' : notAfter u s = true) :
    s = u := by
  induction s generalizing u with
  | nil =>
      cases u with
      | nil => rfl
      | cons b u => simp [notAfter] at h'
  | cons a s ih =>
      cases u with
      | nil => simp [notAfter] at h
      | cons b u =>
          rw [notAfter_cons] at h h'
          rcases h with h | ⟨rfl, h⟩
          · rcases h' with h' | ⟨rfl, _⟩
            · omega
            · omega
          · rcases h' with h' | ⟨_, h'⟩
            · omega
            · rw [ih h h']

instance : Std.Total (fun s u : Str => notAfter s u = true) := ⟨notAfter_total⟩

instance : IsTrans Str (fun s u => notAfter s u = true) := ⟨fun _ _ _ => notAfter_trans⟩

def unwords (ws : List Str) : Str := [' '].intercalate ws

def rev (s : Str) : Str := s.reverse

def dropFields (d : Char) (n : Nat) (s : Str) : Str := [d].intercalate ((s.splitOn d).drop n)

/-- `cut -d d -f n-`. A line without the delimiter is passed on whole. -/
def cutFrom (d : Char) (n : Nat) (s : Str) : Str := if d ∈ s then dropFields d (n - 1) s else s

/-- `cut -d d -f n`. -/
def cutField (d : Char) (n : Nat) (s : Str) : Str :=
  if d ∈ s then ((s.splitOn d)[n - 1]?).getD [] else s

theorem mem_intercalate {d c : Char} {e : Str} {l : List Str} (he : e ∈ l) (hc : c ∈ e) :
    c ∈ [d].intercalate l := by
  induction l with
  | nil => simp at he
  | cons a l ih =>
      rcases List.mem_cons.mp he with rfl | he
      · cases l <;> simp [List.intercalate, hc]
      · have hm := ih he
        cases l with
        | nil => simp at he
        | cons b l => simpa [List.intercalate]
              using .inr (.inr (by simpa [List.intercalate] using hm))

theorem mem_of_mem_splitOn {d c : Char} {e s : Str} (he : e ∈ s.splitOn d) (hc : c ∈ e) :
    c ∈ s := by
  have hm := mem_intercalate (d := d) he hc
  rwa [List.intercalate_splitOn] at hm

theorem dropFields_zero (d : Char) (s : Str) : dropFields d 0 s = s := by
  rw [dropFields, List.drop_zero, List.intercalate_splitOn]

theorem dropFields_succ (d : Char) (n : Nat) (a s : Str) (ha : d ∉ a) :
    dropFields d (n + 1) (a ++ d :: s) = dropFields d n s := by
  rw [dropFields, List.splitOn_append_cons_self_of_not_mem ha, List.drop_succ_cons, dropFields]

theorem mem_dropFields {d c : Char} {n : Nat} {s : Str} (h : c ∈ dropFields d n s) : c ∈ s := by
  induction n generalizing s with
  | zero => rwa [dropFields_zero] at h
  | succ n ih =>
      by_cases hd : d ∈ s
      · obtain ⟨a, b, rfl, ha⟩ := List.eq_append_cons_of_mem hd
        rw [dropFields_succ d n a b ha] at h
        have hb := ih h
        simp [hb]
      · rw [dropFields, List.splitOn_eq_singleton hd] at h
        simp at h

theorem mem_cutFrom {d c : Char} {n : Nat} {s : Str} (h : c ∈ cutFrom d n s) : c ∈ s := by
  rw [cutFrom] at h
  split at h
  · exact mem_dropFields h
  · exact h

theorem cutFrom_succ (d : Char) (n : Nat) (a s : Str) (ha : d ∉ a) :
    cutFrom d (n + 2) (a ++ d :: s) = dropFields d n s := by
  rw [cutFrom, if_pos (by simp), show n + 2 - 1 = n + 1 from rfl, dropFields_succ d n a s ha]

theorem cutField_one (d : Char) (a s : Str) (ha : d ∉ a) : cutField d 1 (a ++ d :: s) = a := by
  rw [cutField, if_pos (by simp), List.splitOn_append_cons_self_of_not_mem ha]
  rfl

theorem cutField_of_not_mem (d : Char) (n : Nat) (s : Str) (h : d ∉ s) : cutField d n s = s :=
  if_neg h

theorem not_mem_cutField_one (d : Char) (s : Str) : d ∉ cutField d 1 s := by
  by_cases h : d ∈ s
  · obtain ⟨a, b, rfl, ha⟩ := List.eq_append_cons_of_mem h
    rwa [cutField_one d a b ha]
  · rwa [cutField_of_not_mem d 1 s h]

theorem words_eq_singleton (s : Str) (hs : s ≠ []) (h : ∀ c ∈ s, blank c = false) :
    words s = [s] := by
  rw [words, List.splitOnP_eq_singleton h]
  simp [hs]

@[simp] theorem words_nil : words [] = [] := rfl

theorem words_append (a b : Str) {c : Char} (hc : blank c = true) :
    words (a ++ c :: b) = words a ++ words b := by
  rw [words, List.splitOnP_append_cons a b hc, List.filter_append, words, words]

theorem words_cons (s : Str) {c : Char} (hc : blank c = true) : words (c :: s) = words s := by
  have h := words_append [] s hc
  rwa [List.nil_append, words_nil, List.nil_append] at h

theorem words_word (w s : Str) {c : Char} (hw : w ≠ []) (hb : ∀ d ∈ w, blank d = false)
    (hc : blank c = true) :
    words (w ++ c :: s) = w :: words s := by
  rw [words_append w s hc, words_eq_singleton w hw hb, List.singleton_append]

/-- `awk '{ print $n }'`. -/
def awkField (n : Nat) (line : Str) : Str := ((words line)[n - 1]?).getD []

def textLines (s : Str) : List Str :=
  if s = [] then []
  else if s.getLast? = some '\n' then (s.splitOn '\n').dropLast
  else s.splitOn '\n'

theorem textLines_cons (l s : Str) (h : '\n' ∉ l) :
    textLines (l ++ '\n' :: s) = l :: textLines s := by
  have hsplit : (l ++ '\n' :: s).splitOn '\n' = l :: s.splitOn '\n' :=
    List.splitOn_append_cons_self_of_not_mem h s
  have hlast : (l ++ '\n' :: s).getLast? = some (s.getLast?.getD '\n') := by
    rw [List.getLast?_append, List.getLast?_cons, Option.some_or]
  rw [textLines, if_neg (by simp), hsplit, hlast, textLines]
  cases hs : s with
  | nil => simp
  | cons c s =>
      obtain ⟨d, hd⟩ : ∃ d, (c :: s).getLast? = some d := ⟨_, List.getLast?_cons⟩
      simp only [hd, Option.getD_some, Option.some.injEq, reduceCtorEq, if_false]
      split
      · rw [List.dropLast_cons_of_ne_nil (List.splitOn_ne_nil _ _)]
      · rfl

/-- What `read` without `-r` makes of a line: each character with whether a
backslash quoted it, and whether the line ends in a lone backslash. -/
def unescape : Str → List (Char × Bool) × Bool
  | [] => ([], false)
  | ['\\'] => ([], true)
  | '\\' :: c :: s => let r := unescape s; ((c, true) :: r.1, r.2)
  | c :: s => let r := unescape s; ((c, false) :: r.1, r.2)

def strippable (p : Char × Bool) : Bool := blank p.1 && !p.2

def strip (cs : List (Char × Bool)) : Str :=
  (((cs.dropWhile strippable).reverse.dropWhile strippable).reverse).map Prod.fst

/-- The successive values of `file` in `while read file`. A line that ends in
a backslash is continued by the next one; at the end of the input `read` fails. -/
def readLoop : List (Char × Bool) → List Str → List Str
  | _, [] => []
  | held, l :: ls =>
      let r := unescape l
      if r.2 then readLoop (held ++ r.1) ls else strip (held ++ r.1) :: readLoop [] ls

def readLines (ls : List Str) : List Str := readLoop [] ls

/-- A line that `read` hands on as it is. -/
def Verbatim (s : Str) : Prop :=
  '\\' ∉ s ∧ (∀ c ∈ s.head?, blank c = false) ∧ ∀ c ∈ s.getLast?, blank c = false

instance (s : Str) : Decidable (Verbatim s) :=
  decidable_of_iff ('\\' ∉ s ∧ s.head?.all (!blank ·) = true ∧ s.getLast?.all (!blank ·) = true)
    (by rw [Verbatim]; cases s.head? <;> cases s.getLast? <;> simp)

theorem unescape_of_not_mem (s : Str) (h : '\\' ∉ s) : unescape s = (s.map (·, false), false) := by
  induction s with
  | nil => rfl
  | cons c s ih =>
      simp only [List.mem_cons, not_or] at h
      have hc : ¬ c = '\\' := fun he => h.1 he.symm
      have hu : unescape (c :: s) = ((c, false) :: (unescape s).1, (unescape s).2) := by
        rw [unescape]
        · simpa using fun he _ => hc he
        · simpa using fun _ _ he _ => hc he
      rw [hu, ih h.2]
      rfl

theorem dropWhile_of_head (l : List (Char × Bool)) (h : ∀ p ∈ l.head?, strippable p = false) :
    l.dropWhile strippable = l := by
  cases l with
  | nil => rfl
  | cons p l => simp [h p (by simp)]

theorem strip_verbatim (s : Str) (h : Verbatim s) : strip (s.map (·, false)) = s := by
  have hh : ∀ p ∈ (s.map (fun c => (c, false))).head?, strippable p = false := by
    intro p hp
    rw [List.head?_map, Option.mem_def, Option.map_eq_some_iff] at hp
    obtain ⟨c, hc, rfl⟩ := hp
    simp [strippable, h.2.1 c hc]
  have hl : ∀ p ∈ (s.map (fun c => (c, false))).reverse.head?, strippable p = false := by
    intro p hp
    rw [List.head?_reverse, List.getLast?_map, Option.mem_def, Option.map_eq_some_iff] at hp
    obtain ⟨c, hc, rfl⟩ := hp
    simp [strippable, h.2.2 c hc]
  rw [strip, dropWhile_of_head _ hh, dropWhile_of_head _ hl]
  simp [Function.comp_def]

theorem readLines_verbatim (ls : List Str) (h : ∀ l ∈ ls, Verbatim l) : readLines ls = ls := by
  induction ls with
  | nil => rfl
  | cons l ls ih =>
      have hl := h l (by simp)
      rw [readLines, readLoop, unescape_of_not_mem l hl.1]
      simp only [Bool.false_eq_true, if_false, List.nil_append, strip_verbatim l hl]
      exact congrArg _ (ih (fun m hm => h m (by simp [hm])))

theorem length_splitOn (d : Char) (s : Str) : (s.splitOn d).length = s.count d + 1 := by
  rw [List.splitOn_eq_splitOnP]
  induction s with
  | nil => rfl
  | cons c s ih =>
      rw [List.splitOnP_cons_eq_if_modifyHead]
      by_cases hc : c = d
      · simp [hc, ih]
      · simp [hc, ih]

theorem sublist_of_mem_splitOnP (p : Char → Bool) (s : Str) : ∀ v ∈ s.splitOnP p, v.Sublist s := by
  induction s with
  | nil => simp
  | cons c s ih =>
      rw [List.splitOnP_cons_eq_if_modifyHead]
      split
      · intro v hv
        rcases List.mem_cons.mp hv with rfl | hv
        · exact List.nil_sublist _
        · exact (ih v hv).cons c
      · obtain ⟨w, ws, hw⟩ := List.exists_cons_of_ne_nil (List.splitOnP_ne_nil p s)
        rw [hw] at ih ⊢
        intro v hv
        rcases List.mem_cons.mp hv with rfl | hv
        · exact (ih w (by simp)).cons_cons c
        · exact (ih v (by simp [hv])).cons c

theorem not_mem_of_mem_splitOn (d : Char) (s : Str) : ∀ v ∈ s.splitOn d, d ∉ v := by
  rw [List.splitOn_eq_splitOnP]
  induction s with
  | nil => simp
  | cons c s ih =>
      rw [List.splitOnP_cons_eq_if_modifyHead]
      split
      · intro v hv
        rcases List.mem_cons.mp hv with rfl | hv
        · exact List.not_mem_nil
        · exact ih v hv
      · rename_i hc
        obtain ⟨w, ws, hw⟩ := List.exists_cons_of_ne_nil (List.splitOnP_ne_nil (· == d) s)
        rw [hw] at ih ⊢
        intro v hv
        rcases List.mem_cons.mp hv with rfl | hv
        · have hcs : d ≠ c := by
            rintro rfl
            exact hc (by simp)
          exact List.not_mem_cons_of_ne_of_not_mem hcs (ih w (by simp))
        · exact ih v (by simp [hv])

end Fidelix.Text
