import Mathlib.Data.List.DropRight
import Mathlib.Data.Rat.Defs

/-! The negotiation of a response encoding (`compress.go`): the scanner of the `Accept-Encoding`
header, and what such a header lists. -/

namespace Foundation.Compress

/-- What `strconv.ParseFloat` reads, with the exact value of a decimal. -/
inductive ParsedFloat where
  | nan
  | inf (negative : Bool)
  | finite (value : ℚ)

def ParsedFloat.quality : ParsedFloat → ℚ
  | .nan | .inf true => 0
  | .inf false => 1
  | .finite value => if value ≤ 0 then 0 else if 1 < value then 1 else value

def isBlank (c : Char) : Bool := c == ' ' || c == '\t'

def lowerASCII (c : Char) : Char := if 'A' ≤ c ∧ c ≤ 'Z' then Char.ofNat (c.toNat + 32) else c

def equalFoldASCII (s target : List Char) : Bool := s.map lowerASCII == target.map lowerASCII

def encodingBrotli : List Char := ['b', 'r']

def encodingZstd : List Char := ['z', 's', 't', 'd']

def encodingGzip : List Char := ['g', 'z', 'i', 'p']

def encodingDeflate : List Char := ['d', 'e', 'f', 'l', 'a', 't', 'e']

structure EncodingScores where
  br : ℚ := 0
  zstd : ℚ := 0
  gzip : ℚ := 0
  deflate : ℚ := 0
  any : ℚ := 0

def EncodingScores.record (scores : EncodingScores) (entry : List Char × ℚ) : EncodingScores :=
  if equalFoldASCII entry.1 encodingBrotli then { scores with br := entry.2 }
  else if equalFoldASCII entry.1 encodingZstd then { scores with zstd := entry.2 }
  else if equalFoldASCII entry.1 encodingGzip then { scores with gzip := entry.2 }
  else if equalFoldASCII entry.1 encodingDeflate then { scores with deflate := entry.2 }
  else if entry.1 = ['*'] then { scores with any := entry.2 }
  else scores

section

variable (parseFloat : List Char → Option ParsedFloat)

def applyParam (q : ℚ) (param : List Char) : ℚ :=
  if ['q', '='].isPrefixOf param || ['Q', '='].isPrefixOf param then
    match parseFloat (param.drop 2) with
    | some val => val.quality
    | none => q
  else q

def inParam (c : Char) : Bool := c != ';' && c != ','

def inName (c : Char) : Bool := c != ';' && c != ',' && c != ' ' && c != '\t'

theorem length_dropWhile_le {α : Type} (p : α → Bool) (l : List α) :
    (l.dropWhile p).length ≤ l.length :=
  (List.dropWhile_suffix p).length_le

/-- The parameters that start here, and what follows them. -/
def scanParams (q : ℚ) : List Char → ℚ × List Char
  | [] => (q, [])
  | c :: s =>
    if c = ';' then
      let param := ((s.dropWhile isBlank).takeWhile inParam).rdropWhile isBlank
      scanParams (applyParam parseFloat q param) ((s.dropWhile isBlank).dropWhile inParam)
    else (q, c :: s)
termination_by s => s.length
decreasing_by
  have hparam := length_dropWhile_le inParam (s.dropWhile isBlank)
  have hblank := length_dropWhile_le isBlank s
  rw [List.length_cons]
  omega

theorem length_scanParams_le (q : ℚ) (s : List Char) :
    (scanParams parseFloat q s).2.length ≤ s.length := by
  fun_induction scanParams parseFloat q s with
  | case1 => exact le_rfl
  | case2 q s param ih =>
    have hparam := length_dropWhile_le inParam (s.dropWhile isBlank)
    have hblank := length_dropWhile_le isBlank s
    rw [List.length_cons]
    omega
  | case3 => exact le_rfl

/-- One entry: its name and quality, and what follows its parameters. -/
def scanEntry (s : List Char) : (List Char × ℚ) × List Char :=
  let params := scanParams parseFloat 1 ((s.dropWhile inName).dropWhile isBlank)
  ((s.takeWhile inName, params.1), params.2)

theorem length_scanEntry_le (s : List Char) : (scanEntry parseFloat s).2.length ≤ s.length :=
  (length_scanParams_le ..).trans ((length_dropWhile_le ..).trans (length_dropWhile_le ..))

def isSkipped (c : Char) : Bool := isBlank c || c == ','

def scanEncodings (scores : EncodingScores) (header : List Char) : EncodingScores :=
  let s := header.dropWhile isSkipped
  if s = [] then scores
  else
    let scanned := scanEntry parseFloat s
    scanEncodings (scores.record scanned.1) (scanned.2.dropWhile (· != ',')).tail
termination_by header.length
decreasing_by
  rename_i hne
  have hpos : 0 < (header.dropWhile isSkipped).length := List.length_pos_iff.mpr hne
  have hskip := length_dropWhile_le isSkipped header
  have hentry := length_scanEntry_le parseFloat (header.dropWhile isSkipped)
  have hcomma :=
    length_dropWhile_le (· != ',') (scanEntry parseFloat (header.dropWhile isSkipped)).2
  rw [List.length_tail]
  omega

def parseEncodingScores (s : List Char) : EncodingScores := scanEncodings parseFloat {} s

def preferredEncoding (acceptEncoding : List Char) : List Char :=
  if acceptEncoding = [] then []
  else
    let scores := parseEncodingScores parseFloat acceptEncoding
    if 0 < scores.br then encodingBrotli
    else if 0 < scores.zstd then encodingZstd
    else if 0 < scores.gzip then encodingGzip
    else if 0 < scores.deflate then encodingDeflate
    else if 0 < scores.any then encodingBrotli
    else []

/-! ### What a header lists -/

/-- The last parameter with a quality counts. -/
def paramsQuality (params : List (List Char)) : ℚ :=
  params.foldl
    (fun q param => applyParam parseFloat q ((param.dropWhile isBlank).rdropWhile isBlank)) 1

/-- An element between commas: a name, and the parameters if a semicolon follows it. -/
def elementEntry (element : List Char) : Option (List Char × ℚ) :=
  let s := element.dropWhile isBlank
  let rest := (s.dropWhile inName).dropWhile isBlank
  if s = [] then none
  else some (s.takeWhile inName, paramsQuality parseFloat (if rest.head? = some ';' then
    rest.tail.splitOn ';' else []))

def entries (header : List Char) : List (List Char × ℚ) :=
  (header.splitOn ',').filterMap (elementEntry parseFloat)

def Lists (header encoding : List Char) (quality : ℚ) : Prop :=
  ∃ entry ∈ entries parseFloat header, equalFoldASCII entry.1 encoding = true ∧ entry.2 = quality

/-- The quality of the last entry that names an encoding. -/
def lastQuality (header : List Char) (names : List Char → Bool) : ℚ :=
  (((entries parseFloat header).filter fun entry => names entry.1).getLast?.map Prod.snd).getD 0

end

end Foundation.Compress
