import Foundation.Spec.AcceptEncoding
import Mathlib.Tactic.Linarith
import Mathlib.Algebra.Order.Ring.Rat

/-! The scanner reads the entries between the commas of a header, and the encoding it leads to is
one that the header refuses exactly when a refusal is overridden: by a later entry of the same name,
or by a wildcard. -/

namespace Foundation.Compress

/-! ### Scanning up to a separator -/

section

variable {p : Char → Bool} {rest : List Char}

theorem dropWhile_append_stop (l : List Char) (h : ∀ c ∈ rest.head?, p c = false) :
    (l ++ rest).dropWhile p = l.dropWhile p ++ rest := by
  rw [List.dropWhile_append]
  split
  next hempty =>
    rw [List.isEmpty_iff.mp hempty, List.nil_append]
    cases rest with
    | nil => rfl
    | cons c rest => rw [List.dropWhile_cons_of_neg (by simp [h c rfl])]
  next => rfl

theorem takeWhile_append_stop (l : List Char) (h : ∀ c ∈ rest.head?, p c = false) :
    (l ++ rest).takeWhile p = l.takeWhile p := by
  rw [List.takeWhile_append]
  split
  next hall =>
    have hself : l.takeWhile p = l := (List.takeWhile_prefix p).eq_of_length hall
    cases rest with
    | nil => rw [List.takeWhile_nil, List.append_nil, hself]
    | cons c rest => rw [List.takeWhile_cons_of_neg (by simp [h c rfl]), List.append_nil, hself]
  next => rfl

/-- A text is what stands before its first separator and, after it, another text. -/
theorem exists_element (a : Char) (s : List Char) :
    ∃ el rest : List Char, s = el ++ rest ∧ a ∉ el ∧ (rest = [] ∨ ∃ s', rest = a :: s') := by
  refine ⟨s.takeWhile (· != a), s.dropWhile (· != a), List.takeWhile_append_dropWhile.symm,
    fun hmem => ?_, ?_⟩
  · exact absurd (List.mem_takeWhile_imp hmem) (by simp)
  · cases hrest : s.dropWhile (· != a) with
    | nil => exact .inl rfl
    | cons c s' =>
      have hc := List.head_dropWhile_not (· != a) (l := s) (by simp [hrest])
      simp only [hrest, List.head_cons] at hc
      exact .inr ⟨s', by simpa using hc⟩

end

theorem stops_of_separator {p : Char → Bool} {a : Char} {rest : List Char}
    (hrest : rest = [] ∨ ∃ s', rest = a :: s') (ha : p a = false) :
    ∀ c ∈ rest.head?, p c = false := by
  rcases hrest with rfl | ⟨s', rfl⟩
  · simp
  · simpa using ha

section

variable (parseFloat : List Char → Option ParsedFloat)

/-! ### Parameters -/

theorem applyParams_splitOn (q : ℚ) {el rest : List Char}
    (hrest : rest = [] ∨ ∃ s', rest = ';' :: s') (hel : ';' ∉ el) :
    ((el ++ rest).splitOn ';').foldl
        (fun q param => applyParam parseFloat q ((param.dropWhile isBlank).rdropWhile isBlank)) q =
      if rest = [] then applyParam parseFloat q ((el.dropWhile isBlank).rdropWhile isBlank)
      else (rest.tail.splitOn ';').foldl
        (fun q param => applyParam parseFloat q ((param.dropWhile isBlank).rdropWhile isBlank))
        (applyParam parseFloat q ((el.dropWhile isBlank).rdropWhile isBlank)) := by
  rcases hrest with rfl | ⟨s', rfl⟩
  · rw [List.append_nil, if_pos rfl, List.splitOn_eq_singleton hel]
    rfl
  · rw [if_neg (List.cons_ne_nil _ _), List.splitOn, List.splitOnP_append_cons _ _ (by simp),
      ← List.splitOn,
      List.splitOn_eq_singleton hel]
    rfl

/-- Without commas the parameters are what the semicolons separate. -/
theorem scanParams_eq (q : ℚ) (s : List Char) (hs : ',' ∉ s) :
    scanParams parseFloat q s =
      if s.head? = some ';' then
        ((s.tail.splitOn ';').foldl
          (fun q param => applyParam parseFloat q ((param.dropWhile isBlank).rdropWhile isBlank)) q,
            [])
      else (q, s) := by
  fun_induction scanParams parseFloat q s with
  | case1 => rfl
  | case2 q s param ih =>
    obtain ⟨el, rest, rfl, hel, hrest⟩ := exists_element ';' s
    have hel' : ',' ∉ el := fun h => hs (by simp [h])
    have hall : ∀ c ∈ el.dropWhile isBlank, inParam c = true := by
      intro c hc
      have hc := (List.dropWhile_suffix isBlank).subset hc
      simp only [inParam, Bool.and_eq_true, bne_iff_ne]
      exact ⟨fun h => hel (h ▸ hc), fun h => hel' (h ▸ hc)⟩
    have hskip : (el ++ rest).dropWhile isBlank = el.dropWhile isBlank ++ rest :=
      dropWhile_append_stop el (stops_of_separator hrest (by decide))
    have hparam : param = (el.dropWhile isBlank).rdropWhile isBlank := by
      change (((el ++ rest).dropWhile isBlank).takeWhile inParam).rdropWhile isBlank = _
      rw [hskip, takeWhile_append_stop _ (stops_of_separator hrest (by decide)),
        List.takeWhile_eq_self_iff.mpr hall]
    have hafter : ((el ++ rest).dropWhile isBlank).dropWhile inParam = rest := by
      rw [hskip, dropWhile_append_stop _ (stops_of_separator hrest (by decide)),
        List.dropWhile_eq_nil_iff.mpr hall,
        List.nil_append]
    rw [hafter] at ih ⊢
    rw [if_pos (List.head?_cons ..), List.tail_cons, applyParams_splitOn parseFloat q hrest hel,
      ← hparam,
      ih fun h => hs (by simp [h])]
    rcases hrest with rfl | ⟨s', rfl⟩
    · rfl
    · rfl
  | case3 q c s hc => rw [if_neg (by simpa using hc)]

theorem scanParams_append (q : ℚ) (s : List Char) {rest : List Char}
    (hrest : rest = [] ∨ ∃ s', rest = ',' :: s') :
    scanParams parseFloat q (s ++ rest) = ((scanParams parseFloat q s).1,
      (scanParams parseFloat q s).2 ++ rest) := by
  fun_induction scanParams parseFloat q s with
  | case1 q =>
    rcases hrest with rfl | ⟨s', rfl⟩
    · rw [List.append_nil, scanParams]
    · rw [List.nil_append, scanParams, if_neg (by decide)]
  | case2 q s param ih =>
    have hskip : (s ++ rest).dropWhile isBlank = s.dropWhile isBlank ++ rest :=
      dropWhile_append_stop s (stops_of_separator hrest (by decide))
    rw [List.cons_append, scanParams, if_pos rfl, hskip,
      takeWhile_append_stop _ (stops_of_separator hrest (by decide)),
      dropWhile_append_stop _ (stops_of_separator hrest (by decide)), ih]
  | case3 q c s hc => rw [List.cons_append, scanParams, if_neg hc]

/-! ### Entries -/

theorem entries_append (el s : List Char) :
    entries parseFloat (el ++ ',' :: s) = entries parseFloat el ++ entries parseFloat s := by
  rw [entries, List.splitOn, List.splitOnP_append_cons _ _ (by simp), List.filterMap_append]
  rfl

theorem entries_element {el : List Char} (hel : ',' ∉ el) :
    entries parseFloat el = (elementEntry parseFloat el).toList := by
  rw [entries, List.splitOn_eq_singleton hel]
  cases hentry : elementEntry parseFloat el <;> simp [hentry]

theorem elementEntry_blank {c : Char} (hc : isBlank c = true) (el : List Char) :
    elementEntry parseFloat (c :: el) = elementEntry parseFloat el := by
  rw [elementEntry, List.dropWhile_cons_of_pos hc, elementEntry]

theorem entries_dropWhile (header : List Char) :
    entries parseFloat (header.dropWhile isSkipped) = entries parseFloat header := by
  induction header with
  | nil => rfl
  | cons c s ih =>
    by_cases hc : isSkipped c = true
    · rw [List.dropWhile_cons_of_pos hc, ih]
      rcases Bool.or_eq_true _ _ ▸ hc with hblank | hcomma
      · obtain ⟨el, rest, rfl, hel, hrest⟩ := exists_element ',' s
        have hcel : ',' ∉ c :: el := by
          rw [List.mem_cons, not_or]
          exact ⟨fun h => by simp [← h, isBlank] at hblank, hel⟩
        rcases hrest with rfl | ⟨s', rfl⟩
        · rw [List.append_nil, entries_element _ hel, entries_element _ hcel,
            elementEntry_blank _ hblank]
        · rw [← List.cons_append, entries_append, entries_append, entries_element _ hel,
            entries_element _ hcel,
            elementEntry_blank _ hblank]
      · rw [eq_of_beq hcomma]
        exact (entries_append parseFloat [] s).symm
    · rw [List.dropWhile_cons_of_neg hc]

/-- A scanned element is its entry, and the scanner then stands at the comma. -/
theorem scanEntry_element {el rest : List Char} (hel : ',' ∉ el)
    (hrest : rest = [] ∨ ∃ s', rest = ',' :: s')
    (hstart : ∀ c ∈ (el ++ rest).head?, isSkipped c = false) (hne : el ++ rest ≠ []) :
    elementEntry parseFloat el = some (scanEntry parseFloat (el ++ rest)).1 ∧
      (scanEntry parseFloat (el ++ rest)).2.dropWhile (· != ',') = rest := by
  have hname : (el ++ rest).takeWhile inName = el.takeWhile inName :=
    takeWhile_append_stop el (stops_of_separator hrest (by decide))
  have hafter : ((el ++ rest).dropWhile inName).dropWhile isBlank = (el.dropWhile inName).dropWhile
      isBlank ++ rest := by
    rw [dropWhile_append_stop el (stops_of_separator hrest (by decide)),
      dropWhile_append_stop _ (stops_of_separator hrest (by decide))]
  set after := (el.dropWhile inName).dropWhile isBlank with hafterdef
  have hcomma : ',' ∉ after := fun h =>
    hel ((List.dropWhile_suffix _).subset ((List.dropWhile_suffix _).subset h))
  have hscan : scanEntry parseFloat (el ++ rest) =
      ((el.takeWhile inName, (scanParams parseFloat 1 after).1),
        (scanParams parseFloat 1 after).2 ++ rest) := by
    rw [scanEntry, hname, hafter, scanParams_append parseFloat 1 after hrest]
  rw [hscan]
  have hblank : el.dropWhile isBlank = el ∧ el ≠ [] := by
    cases el with
    | nil =>
      rcases hrest with rfl | ⟨s', rfl⟩
      · exact absurd rfl hne
      · exact absurd (hstart ',' rfl) (by decide)
    | cons c el =>
      have hc := hstart c rfl
      rw [isSkipped, Bool.or_eq_false_iff] at hc
      exact ⟨List.dropWhile_cons_of_neg (by simp [hc.1]), List.cons_ne_nil _ _⟩
  constructor
  · rw [elementEntry, hblank.1, if_neg hblank.2, ← hafterdef,
      scanParams_eq parseFloat 1 after hcomma]
    split <;> rfl
  · have hnone : ∀ c ∈ (scanParams parseFloat 1 after).2, (c != ',') = true := by
      intro c hc
      rw [scanParams_eq parseFloat 1 after hcomma] at hc
      split at hc
      · simp at hc
      · exact bne_iff_ne.mpr fun h => hcomma (h ▸ hc)
    rw [List.dropWhile_append_of_pos hnone]
    rcases hrest with rfl | ⟨s', rfl⟩
    · rfl
    · exact List.dropWhile_cons_of_neg (by simp)

theorem entries_scanEntry {s : List Char} (hstart : ∀ c ∈ s.head?, isSkipped c = false)
    (hne : s ≠ []) :
    entries parseFloat s = (scanEntry parseFloat s).1 ::
      entries parseFloat ((scanEntry parseFloat s).2.dropWhile (· != ',')).tail := by
  obtain ⟨el, rest, rfl, hel, hrest⟩ := exists_element ',' s
  obtain ⟨hentry, hdrop⟩ := scanEntry_element parseFloat hel hrest hstart hne
  rw [hdrop]
  rcases hrest with rfl | ⟨s', rfl⟩
  · rw [List.append_nil] at hentry ⊢
    rw [entries_element _ hel, hentry]
    rfl
  · rw [entries_append, entries_element _ hel, hentry]
    rfl

theorem scanEncodings_eq (scores : EncodingScores) (header : List Char) :
    scanEncodings parseFloat scores header = (entries parseFloat header).foldl
      EncodingScores.record scores := by
  fun_induction scanEncodings parseFloat scores header with
  | case1 scores header s hs =>
    rw [← entries_dropWhile, show header.dropWhile isSkipped = [] from hs]
    rfl
  | case2 scores header s hs scanned ih =>
    have hstart : ∀ c ∈ (header.dropWhile isSkipped).head?, isSkipped c = false := by
      intro c hc
      have hnot := List.head?_dropWhile_not isSkipped header
      rw [Option.mem_def.mp hc] at hnot
      simpa using hnot
    rw [← entries_dropWhile, entries_scanEntry parseFloat hstart hs, ih]
    rfl

/-! ### Scores -/

theorem quality_nonneg (val : ParsedFloat) : 0 ≤ val.quality := by
  cases val with
  | nan => exact le_rfl
  | inf negative => cases negative <;> decide
  | finite value =>
    rw [ParsedFloat.quality]
    split_ifs with h
    · exact le_rfl
    · decide
    · exact (not_le.mp h).le

theorem applyParam_nonneg {q : ℚ} (hq : 0 ≤ q) (param : List Char) :
    0 ≤ applyParam parseFloat q param := by
  rw [applyParam]
  split
  · split
    · exact quality_nonneg _
    · exact hq
  · exact hq

variable {header : List Char}

theorem entry_nonneg {entry : List Char × ℚ} (h : entry ∈ entries parseFloat header) :
    0 ≤ entry.2 := by
  obtain ⟨el, _, hentry⟩ := List.mem_filterMap.mp h
  rw [elementEntry] at hentry
  split at hentry
  · exact absurd hentry (by simp)
  · rw [← Option.some.inj hentry]
    exact List.foldlRecOn _ _ (by decide) fun q hq _ _ => applyParam_nonneg parseFloat hq _

theorem equalFoldASCII_iff {s target : List Char} (htarget : target.map lowerASCII = target) :
    equalFoldASCII s target = true ↔ s.map lowerASCII = target := by
  rw [equalFoldASCII, htarget, beq_iff_eq]

theorem record_fields (scores : EncodingScores) (entry : List Char × ℚ) :
    (scores.record entry).br = (if equalFoldASCII entry.1 encodingBrotli then
      entry.2 else scores.br) ∧
    (scores.record entry).zstd = (if equalFoldASCII entry.1 encodingZstd then entry.2
      else scores.zstd) ∧
    (scores.record entry).gzip = (if equalFoldASCII entry.1 encodingGzip then entry.2
      else scores.gzip) ∧
    (scores.record entry).deflate = (if equalFoldASCII entry.1 encodingDeflate then entry.2
      else scores.deflate) ∧
    (scores.record entry).any = (if entry.1 == ['*'] then entry.2 else scores.any) := by
  obtain ⟨name, q⟩ := entry
  by_cases hany : name = ['*']
  · subst hany
    exact ⟨rfl, rfl, rfl, rfl, rfl⟩
  · simp only [EncodingScores.record, if_neg hany, beq_iff_eq,
      equalFoldASCII_iff (show encodingBrotli.map lowerASCII = encodingBrotli by decide),
      equalFoldASCII_iff (show encodingZstd.map lowerASCII = encodingZstd by decide),
      equalFoldASCII_iff (show encodingGzip.map lowerASCII = encodingGzip by decide),
      equalFoldASCII_iff (show encodingDeflate.map lowerASCII = encodingDeflate by decide)]
    generalize name.map lowerASCII = key
    split_ifs <;> simp_all [encodingBrotli, encodingZstd, encodingGzip, encodingDeflate]

theorem foldl_record (f : EncodingScores → ℚ) (names : List Char → Bool)
    (hf : ∀ scores entry, f (scores.record entry) = if names entry.1 then entry.2 else f scores)
    (scores : EncodingScores) (es : List (List Char × ℚ)) :
    f (es.foldl EncodingScores.record scores) =
      ((es.filter fun entry => names entry.1).getLast?.map Prod.snd).getD (f scores) := by
  induction es using List.reverseRecOn with
  | nil => rfl
  | append_singleton es entry ih =>
    rw [List.foldl_concat, hf, List.filter_append]
    by_cases hname : names entry.1 = true
    · simp [hname]
    · simp [hname, ih]

theorem parseEncodingScores_eq (header : List Char) :
    parseEncodingScores parseFloat header =
      { br := lastQuality parseFloat header (equalFoldASCII · encodingBrotli)
        zstd := lastQuality parseFloat header (equalFoldASCII · encodingZstd)
        gzip := lastQuality parseFloat header (equalFoldASCII · encodingGzip)
        deflate := lastQuality parseFloat header (equalFoldASCII · encodingDeflate)
        any := lastQuality parseFloat header (· == ['*']) } := by
  rw [parseEncodingScores, scanEncodings_eq]
  have hbr := foldl_record EncodingScores.br (equalFoldASCII · encodingBrotli) fun scores entry =>
    (record_fields scores entry).1
  have hzstd := foldl_record EncodingScores.zstd (equalFoldASCII · encodingZstd) fun scores entry =>
    (record_fields scores entry).2.1
  have hgzip := foldl_record EncodingScores.gzip (equalFoldASCII · encodingGzip) fun scores entry =>
    (record_fields scores entry).2.2.1
  have hdeflate :=
    foldl_record EncodingScores.deflate (equalFoldASCII · encodingDeflate) fun scores entry =>
    (record_fields scores entry).2.2.2.1
  have hany :=
    foldl_record EncodingScores.any (· == ['*']) fun scores entry =>
    (record_fields scores entry).2.2.2.2
  simp only [lastQuality, ← hbr {}, ← hzstd {}, ← hgzip {}, ← hdeflate {}, ← hany {}]

/-! ### The negotiation -/

def supported : List (List Char) := [encodingBrotli, encodingZstd, encodingGzip, encodingDeflate]

/-- The first supported encoding whose last entry accepts it. -/
def firstAccepted (header : List Char) : Option (List Char) :=
  supported.find? fun encoding => 0 < lastQuality parseFloat header (equalFoldASCII · encoding)

theorem preferredEncoding_eq (header : List Char) :
    preferredEncoding parseFloat header =
      (firstAccepted parseFloat header).getD
        (if 0 < lastQuality parseFloat header (· == ['*']) then encodingBrotli else []) := by
  rw [preferredEncoding]
  split
  next hempty =>
    subst hempty
    rfl
  next =>
    simp only [parseEncodingScores_eq, firstAccepted, supported, List.find?_cons, List.find?_nil]
    split_ifs <;> simp only [*, decide_true, decide_false, Option.getD_some, Option.getD_none]

/-- A positive last quality is that of an entry, and so is any last quality of a name that is
listed. -/
theorem lastQuality_mem (names : List Char → Bool) {entry : List Char × ℚ}
    (h : entry ∈ entries parseFloat header) (hname : names entry.1 = true) :
    ∃ last ∈ entries parseFloat header, names last.1 = true ∧
      last.2 = lastQuality parseFloat header names := by
  have hne : (entries parseFloat header).filter (fun entry => names entry.1) ≠ [] :=
    List.ne_nil_of_mem (List.mem_filter.mpr ⟨h, hname⟩)
  have hlast := List.mem_filter.mp (List.getLast_mem hne)
  refine ⟨_, hlast.1, hlast.2, ?_⟩
  rw [lastQuality, List.getLast?_eq_some_getLast hne]
  rfl

theorem exists_of_lastQuality_pos {names : List Char → Bool}
    (h : 0 < lastQuality parseFloat header names) :
    ∃ last ∈ entries parseFloat header, names last.1 = true ∧ 0 < last.2 := by
  have hne : (entries parseFloat header).filter (fun entry => names entry.1) ≠ [] := by
    intro hnil
    rw [lastQuality, hnil] at h
    exact absurd h (by decide)
  obtain ⟨entry, hentry⟩ := List.exists_mem_of_ne_nil _ hne
  obtain ⟨hmem, hname⟩ := List.mem_filter.mp hentry
  obtain ⟨last, hlast, hname, heq⟩ := lastQuality_mem parseFloat names hmem hname
  exact ⟨last, hlast, hname, heq ▸ h⟩

/-- An encoding is not one the header lists with quality zero, and one it accepts, by name or by the
wildcard. -/
def Honours (header encoding : List Char) : Prop :=
  encoding ≠ [] → ¬Lists parseFloat header encoding 0 ∧
    ((∃ q, 0 < q ∧ Lists parseFloat header encoding q) ∨
      ∃ entry ∈ entries parseFloat header, entry.1 = ['*'] ∧ 0 < entry.2)

theorem supported_ne_nil {encoding : List Char} (h : encoding ∈ supported) : encoding ≠ [] := by
  rintro rfl
  exact absurd h (by decide)

theorem preferred_honours_iff (header : List Char) :
    Honours parseFloat header (preferredEncoding parseFloat header) ↔
      (∀ encoding, firstAccepted parseFloat header = some encoding →
        ¬Lists parseFloat header encoding 0) ∧
      (firstAccepted parseFloat header = none → 0 < lastQuality parseFloat header (· == ['*']) →
        ∀ q, ¬Lists parseFloat header encodingBrotli q) := by
  rw [preferredEncoding_eq]
  cases hfirst : firstAccepted parseFloat header with
  | some encoding =>
    have hpos : 0 < lastQuality parseFloat header (equalFoldASCII · encoding) := by
      have hfound := List.find?_some hfirst
      simpa only [decide_eq_true_eq] using hfound
    obtain ⟨last, hlast, hname, hq⟩ := exists_of_lastQuality_pos parseFloat hpos
    have haccepts : ∃ q, 0 < q ∧ Lists parseFloat header encoding q :=
      ⟨last.2, hq, last, hlast, hname, rfl⟩
    have hne := supported_ne_nil (List.mem_of_find?_eq_some hfirst)
    rw [Option.getD_some, Honours]
    constructor
    · intro h
      refine ⟨fun encoding' heq => ?_, fun h => absurd h (by simp)⟩
      rw [← Option.some.inj heq]
      exact (h hne).1
    · intro h _
      exact ⟨h.1 encoding rfl, .inl haccepts⟩
  | none =>
    rw [Option.getD_none]
    by_cases hany : 0 < lastQuality parseFloat header (· == ['*'])
    · obtain ⟨star, hstar, hname, hq⟩ := exists_of_lastQuality_pos parseFloat hany
      -- The last entry of a refused name has quality zero, so any entry of it means a refusal.
      have hrefused : ¬0 < lastQuality parseFloat header (equalFoldASCII · encodingBrotli) := by
        have hnone := List.find?_eq_none.mp hfirst encodingBrotli (by decide)
        simpa using hnone
      have hzero : ∀ q, Lists parseFloat header encodingBrotli q →
          Lists parseFloat header encodingBrotli 0 := by
        rintro q ⟨entry, hentry, hname, -⟩
        obtain ⟨last, hlast, hname, heq⟩ :=
          lastQuality_mem parseFloat (equalFoldASCII · encodingBrotli) hentry hname
        refine ⟨last, hlast, hname, le_antisymm ?_ (entry_nonneg parseFloat hlast)⟩
        rw [heq]
        exact not_lt.mp hrefused
      rw [if_pos hany, Honours]
      constructor
      · intro h
        refine ⟨fun encoding heq => absurd heq (by simp), fun _ _ q hq => ?_⟩
        exact (h (supported_ne_nil (by decide))).1 (hzero q hq)
      · intro h _
        exact ⟨h.2 rfl hany 0, .inr ⟨star, hstar, eq_of_beq hname, hq⟩⟩
    · rw [if_neg hany, Honours]
      constructor
      · intro _
        exact ⟨fun encoding heq => absurd heq (by simp), fun _ h => absurd h hany⟩
      · intro _ h
        exact absurd rfl h

end

def parseZero (text : List Char) : Option ParsedFloat :=
  if text = ['0'] then some (.finite 0) else none

/-- A wildcard overrides the refusal of the first encoding. -/
theorem wildcard_overrides_refusal :
    ¬Honours parseZero "br;q=0, *".toList (preferredEncoding parseZero "br;q=0, *".toList) := by
  have hpreferred : preferredEncoding parseZero "br;q=0, *".toList = encodingBrotli := by
    rw [preferredEncoding_eq]
    decide +kernel
  have hlists : Lists parseZero "br;q=0, *".toList encodingBrotli 0 :=
    ⟨(encodingBrotli, 0), by decide +kernel, by decide, rfl⟩
  rw [hpreferred]
  exact fun h => (h (by decide)).1 hlists

end Foundation.Compress
