import Mathlib.Data.List.DropRight
import Mathlib.Tactic

/-! The parts of Go's `strings` and `sort` packages the store relies on. Strings are
sequences of Unicode scalar values, so byte lengths are those of the UTF-8 encoding. -/

namespace Foundation.Go

/-- `unicode.IsSpace`: the code points with Unicode's White Space property. -/
def isSpace (c : Char) : Bool :=
  let n := c.toNat
  (0x09 ≤ n && n ≤ 0x0D) || n == 0x20 || n == 0x85 || n == 0xA0 || n == 0x1680 ||
    (0x2000 ≤ n && n ≤ 0x200A) || n == 0x2028 || n == 0x2029 || n == 0x202F || n == 0x205F ||
    n == 0x3000

def trimChars (l : List Char) : List Char :=
  (l.dropWhile isSpace).rdropWhile isSpace

/-- `strings.TrimSpace`. -/
def trimSpace (s : String) : String := String.ofList (trimChars s.toList)

/-- `strings.EqualFold` against an ASCII text without the letters `k` and `s`, which
are the only ASCII letters with a fold outside ASCII. -/
def equalFold (s t : String) : Bool := s.toList.map Char.toLower == t.toList.map Char.toLower

/-- `strings.Cut(s, string(sep))`, with the part after the separator left out. -/
def cutBefore (sep : Char) (s : String) : Option String :=
  if sep ∈ s.toList then some (String.ofList (s.toList.takeWhile (· != sep))) else none

theorem trim_idem (p : Char → Bool) (l : List Char) :
    (((l.dropWhile p).rdropWhile p).dropWhile p).rdropWhile p = (l.dropWhile p).rdropWhile p := by
  set m := l.dropWhile p with hm
  have hhead : (m.rdropWhile p).dropWhile p = m.rdropWhile p := by
    rw [List.dropWhile_eq_self_iff]
    intro hl
    have hp := List.rdropWhile_prefix p m
    have hpos : 0 < m.length := lt_of_lt_of_le hl hp.length_le
    rw [hp.getElem hl]
    exact List.dropWhile_get_zero_not p l hpos
  rw [hhead, List.rdropWhile_idempotent]

theorem trimChars_idem (l : List Char) : trimChars (trimChars l) = trimChars l :=
  trim_idem isSpace l

@[simp] theorem trimSpace_trimSpace (s : String) : trimSpace (trimSpace s) = trimSpace s := by
  simp only [trimSpace, String.toList_ofList, trimChars_idem]

@[simp] theorem toList_trimSpace (s : String) : (trimSpace s).toList = trimChars s.toList := by
  simp only [trimSpace, String.toList_ofList]

variable {l : List Char}

theorem trimChars_eq_self (hh : ∀ c ∈ l.head?, isSpace c = false)
    (ht : ∀ c ∈ l.getLast?, isSpace c = false) : trimChars l = l := by
  unfold trimChars
  have h1 : l.dropWhile isSpace = l := by
    cases l with
    | nil => rfl
    | cons a t => simp [hh a (by simp)]
  rw [h1]
  rw [List.rdropWhile_eq_self_iff]
  intro hl
  simp [ht (l.getLast hl) (by simp [List.getLast?_eq_getLast_of_ne_nil hl])]

theorem trimSpace_eq_self {s : String} (hh : ∀ c ∈ s.toList.head?, isSpace c = false)
    (ht : ∀ c ∈ s.toList.getLast?, isSpace c = false) : trimSpace s = s := by
  rw [trimSpace, trimChars_eq_self hh ht, String.ofList_toList]

theorem head_of_trimmed (h : trimChars l = l) : ∀ c ∈ l.head?, isSpace c = false := by
  have hlen : l.length ≤ (l.dropWhile isSpace).length := by
    conv_lhs => rw [← h]
    exact (List.rdropWhile_prefix isSpace _).length_le
  have hdrop : l.dropWhile isSpace = l := (List.dropWhile_suffix isSpace).eq_of_length_le hlen
  intro c hc
  cases l with
  | nil => simp at hc
  | cons a t =>
    obtain rfl : a = c := by simpa using hc
    by_contra hs
    rw [List.dropWhile_cons_of_pos (by simpa using hs)] at hdrop
    exact absurd ((List.dropWhile_suffix isSpace (l := t)).length_le) (by rw [hdrop]; simp)

theorem last_of_trimmed (h : trimChars l = l) : ∀ c ∈ l.getLast?, isSpace c = false := by
  intro c hc
  have hne : l ≠ [] := by rintro rfl; simp at hc
  rw [List.getLast?_eq_getLast_of_ne_nil hne] at hc
  obtain rfl : l.getLast hne = c := by simpa using hc
  have hr : l.rdropWhile isSpace = l := by
    conv_lhs => rw [← h]
    unfold trimChars
    rw [List.rdropWhile_idempotent]
    exact h
  simpa using List.rdropWhile_eq_self_iff.mp hr hne

theorem trimSpace_between {a b : String} (m : String) (ha : trimSpace a = a) (hb : trimSpace b = b)
    (hane : a ≠ "") (hbne : b ≠ "") : trimSpace (a ++ m ++ b) = a ++ m ++ b := by
  have hal : a.toList ≠ [] := fun h => hane (String.toList_inj.mp (by simpa using h))
  have hbl : b.toList ≠ [] := fun h => hbne (String.toList_inj.mp (by simpa using h))
  have hat : trimChars a.toList = a.toList := by rw [← toList_trimSpace, ha]
  have hbt : trimChars b.toList = b.toList := by rw [← toList_trimSpace, hb]
  refine trimSpace_eq_self ?_ ?_
  · rw [String.toList_append, String.toList_append, List.append_assoc,
      List.head?_append_of_ne_nil _ hal]
    exact head_of_trimmed hat
  · rw [String.toList_append, List.getLast?_append_of_ne_nil _ hbl]
    exact last_of_trimmed hbt

theorem isDigit_of_mem_repr {n : ℕ} {c : Char} (h : c ∈ (Nat.repr n).toList) :
    c.isDigit = true := by
  rw [Nat.toList_repr] at h
  exact Nat.isDigit_of_mem_toDigits (by decide) (by decide) h

theorem isSpace_of_isDigit {c : Char} (h : c.isDigit = true) : isSpace c = false := by
  simp only [Char.isDigit, Bool.and_eq_true, decide_eq_true_eq, ge_iff_le,
    UInt32.le_iff_toNat_le] at h
  have h1 : 48 ≤ c.toNat := h.1
  have h2 : c.toNat ≤ 57 := h.2
  simp only [isSpace, Bool.or_eq_false_iff, Bool.and_eq_false_iff, decide_eq_false_iff_not,
    beq_eq_false_iff_ne]
  omega

theorem repr_ne_empty (n : ℕ) : Nat.repr n ≠ "" := by
  intro h
  have hl := congrArg String.toList h
  rw [Nat.toList_repr] at hl
  exact Nat.toDigits_ne_nil hl

theorem repr_injective {m n : ℕ} (h : Nat.repr m = Nat.repr n) : m = n := by
  have hl := congrArg String.toList h
  rw [Nat.toList_repr, Nat.toList_repr] at hl
  have hm := Nat.ofDigitChars_toDigits (n := m) (by decide : 1 < 10) (by decide)
  rw [hl, Nat.ofDigitChars_toDigits (by decide) (by decide)] at hm
  exact hm.symm

theorem trimSpace_repr (n : ℕ) : trimSpace (Nat.repr n) = Nat.repr n :=
  trimSpace_eq_self
    (fun _ hc => isSpace_of_isDigit (isDigit_of_mem_repr (List.mem_of_mem_head? hc)))
    fun _ hc => isSpace_of_isDigit (isDigit_of_mem_repr (List.mem_of_mem_getLast? hc))

/-- The loop of `sort.Search`; every round shrinks the interval, so its length is
enough fuel. -/
def searchLoop (f : ℕ → Bool) : ℕ → ℕ → ℕ → ℕ
  | 0, i, _ => i
  | fuel + 1, i, j =>
    if i < j then
      if f ((i + j) / 2) then searchLoop f fuel i ((i + j) / 2)
      else searchLoop f fuel ((i + j) / 2 + 1) j
    else i

/-- `sort.Search(n, f)`. -/
def search (n : ℕ) (f : ℕ → Bool) : ℕ := searchLoop f n 0 n

theorem searchLoop_spec (f : ℕ → Bool) (n : ℕ)
    (hmono : ∀ i j, i ≤ j → j < n → f i = true → f j = true) :
    ∀ fuel i j, j - i ≤ fuel → i ≤ j → j ≤ n → (∀ k < i, f k = false) →
      (∀ k, j ≤ k → k < n → f k = true) →
      (∀ k < searchLoop f fuel i j, f k = false) ∧
      (∀ k, searchLoop f fuel i j ≤ k → k < n → f k = true) ∧ searchLoop f fuel i j ≤ n := by
  intro fuel
  induction fuel with
  | zero =>
    intro i j hf hij hjn hlo hhi
    have : i = j := by omega
    subst this
    exact ⟨hlo, hhi, hjn⟩
  | succ fuel ih =>
    intro i j hf hij hjn hlo hhi
    unfold searchLoop
    split_ifs with hlt hh
    · refine ih i ((i + j) / 2) (by omega) (by omega) (by omega) hlo ?_
      intro k hk hkn
      exact hmono _ k hk hkn hh
    · refine ih ((i + j) / 2 + 1) j (by omega) (by omega) hjn ?_ hhi
      intro k hk
      by_contra hc
      exact hh (hmono k _ (by omega) (by omega) (by simpa using hc))
    · have : i = j := by omega
      subst this
      exact ⟨hlo, hhi, hjn⟩

/-- On a predicate that stays true once it is true, `sort.Search` returns the first
index at which it is, or `n`. -/
theorem search_spec (f : ℕ → Bool) (n : ℕ)
    (hmono : ∀ i j, i ≤ j → j < n → f i = true → f j = true) :
    (∀ k < search n f, f k = false) ∧ (∀ k, search n f ≤ k → k < n → f k = true) ∧ search n f ≤ n :=
  searchLoop_spec f n hmono n 0 n (by omega) (by omega) le_rfl (by omega) (by omega)

theorem toList_append_sep (x sep y : String) {c : Char} (h : sep.toList = [c]) :
    (x ++ sep ++ y).toList = x.toList ++ c :: y.toList := by
  rw [String.toList_append, String.toList_append, h, List.append_assoc]
  rfl

/-- The text after the last separator is determined by the whole. -/
theorem append_sep_inj {sep : Char} {a b c d : List Char} (hb : sep ∉ b) (hd : sep ∉ d)
    (h : a ++ sep :: b = c ++ sep :: d) : b = d := by
  have hr := congrArg (fun l => (l.reverse.takeWhile (· != sep)).reverse) h
  have key : ∀ (x y : List Char), sep ∉ y →
      ((x ++ sep :: y).reverse.takeWhile (· != sep)).reverse = y := by
    intro x y hy
    rw [List.reverse_append, List.reverse_cons, List.append_assoc, List.takeWhile_append_of_pos]
    · simp
    · intro e he
      have : e ≠ sep := fun h' => hy (by rw [← h']; simpa using he)
      simpa using this
  simpa only [key a b hb, key c d hd] using hr

/-- The text before the first separator is determined by the whole, and so is the rest. -/
theorem append_cons_inj {α : Type*} {sep : α} {a b c d : List α} (ha : sep ∉ a) (hc : sep ∉ c)
    (h : a ++ sep :: b = c ++ sep :: d) : a = c ∧ b = d := by
  induction a generalizing c with
  | nil =>
    cases c with
    | nil => exact ⟨rfl, (List.cons.inj h).2⟩
    | cons e c => exact absurd (List.cons.inj h).1 fun he => hc (he ▸ List.mem_cons_self)
  | cons e a ih =>
    cases c with
    | nil => exact absurd (List.cons.inj h).1 fun he => ha (he ▸ List.mem_cons_self)
    | cons f c =>
      obtain ⟨rfl, htail⟩ := List.cons.inj h
      obtain ⟨rfl, rfl⟩ :=
        ih (fun hm => ha (List.mem_cons_of_mem e hm)) (fun hm => hc (List.mem_cons_of_mem e hm))
        htail
      exact ⟨rfl, rfl⟩

/-- A nonempty list of texts without the separator is determined by its join. -/
theorem intercalate_sep_inj {sep : Char} {a b : List (List Char)} (hne : a ≠ []) (hne' : b ≠ [])
    (ha : ∀ x ∈ a, sep ∉ x) (hb : ∀ x ∈ b, sep ∉ x)
    (h : [sep].intercalate a = [sep].intercalate b) : a = b := by
  induction a generalizing b with
  | nil => exact absurd rfl hne
  | cons x xs ih =>
    obtain ⟨y, ys, rfl⟩ := List.exists_cons_of_ne_nil hne'
    have hx := ha x List.mem_cons_self
    have hy := hb y List.mem_cons_self
    cases xs with
    | nil =>
      cases ys with
      | nil => simpa using h
      | cons y' ys =>
        rw [List.intercalate_singleton, List.intercalate_cons_cons] at h
        exact absurd (h ▸ hx) (by simp)
    | cons x' xs =>
      cases ys with
      | nil =>
        rw [List.intercalate_singleton, List.intercalate_cons_cons] at h
        exact absurd (h ▸ hy) (by simp)
      | cons y' ys =>
        rw [List.intercalate_cons_cons, List.intercalate_cons_cons, List.append_assoc,
          List.append_assoc,
          List.singleton_append, List.singleton_append] at h
        obtain ⟨rfl, hrest⟩ := append_cons_inj hx hy h
        rw [ih (List.cons_ne_nil x' xs) (List.cons_ne_nil y' ys)
          (fun z hz => ha z (List.mem_cons_of_mem x hz))
          (fun z hz => hb z (List.mem_cons_of_mem x hz)) hrest]

theorem cutBefore_append {c : Char} {a sep : String} (rest : String) (hsep : sep.toList = [c])
    (ha : c ∉ a.toList) : cutBefore c (a ++ sep ++ rest) = some a := by
  have htake : (a.toList ++ c :: rest.toList).takeWhile (· != c) = a.toList := by
    rw [List.takeWhile_append_of_pos]
    · simp
    · intro d hd
      simpa using fun h : d = c => ha (h ▸ hd)
  unfold cutBefore
  rw [toList_append_sep a sep rest hsep, if_pos (by simp), htake, String.ofList_toList]

/-- A number printed after a separator that is no digit is determined by the whole text. -/
theorem append_repr_inj {x y sep : String} {c : Char} {m n : ℕ} (hsep : sep.toList = [c])
    (hc : c.isDigit = false) (h : x ++ sep ++ Nat.repr m = y ++ sep ++ Nat.repr n) : m = n := by
  have hdigit : ∀ k, c ∉ (Nat.repr k).toList := by
    intro k hk
    rw [isDigit_of_mem_repr hk] at hc
    cases hc
  have hl := congrArg String.toList h
  rw [toList_append_sep _ _ _ hsep, toList_append_sep _ _ _ hsep] at hl
  exact repr_injective (String.toList_inj.mp (append_sep_inj (hdigit m) (hdigit n) hl))

theorem trimChars_append_cons {a b : List Char} {c : Char} (hc : isSpace c = false) :
    trimChars (a ++ c :: b) = a.dropWhile isSpace ++ c :: b.rdropWhile isSpace := by
  have hleft : (a ++ c :: b).dropWhile isSpace = a.dropWhile isSpace ++ c :: b := by
    rw [List.dropWhile_append]
    split_ifs with h
    · rw [List.isEmpty_iff.mp h, List.dropWhile_cons_of_neg (by simp [hc])]
      rfl
    · rfl
  have hright : ∀ x : List Char, (x ++ c :: b).rdropWhile isSpace = x ++ c ::
      b.rdropWhile isSpace := by
    intro x
    unfold List.rdropWhile
    rw [List.reverse_append, List.reverse_cons, List.append_assoc, List.dropWhile_append]
    split_ifs with h
    · rw [List.singleton_append, List.dropWhile_cons_of_neg (by simp [hc]), List.isEmpty_iff.mp h]
      simp
    · simp
  rw [trimChars, hleft, hright]

end Foundation.Go
