import SignatureInference.Proofs.Text.Bytes
import SignatureInference.Source.Mask

/-! # Masking in place

Masking can be done in place. A cursor goes over the bytes of a source from token to token, and a
copy of the bytes is blanked between the offsets that are found on the way. Offsets are plain
numbers here, and nothing but the bytes says where a token ends. So each access that is not at the
cursor itself is checked: it fails outside the buffer, and masking fails as a whole where the cursor
would stand still.
-/
namespace SignatureInference.Source.Buffer

open Text

/-! ## Accesses -/

/-- The bytes between two offsets, which must be in order and not beyond the end. -/
def slice? (bytes : List UInt8) (start stop : Nat) : Option (List UInt8) :=
  if start ≤ stop ∧ stop ≤ bytes.length then some ((bytes.take stop).drop start) else none

/-- A line feed stays, any other byte becomes a blank. -/
def blankByte (b : UInt8) : UInt8 := if b = '\n'.toUInt8 then b else ' '.toUInt8

/-- Blanks the bytes between two offsets. The stop counts as the end if it is beyond, and the start
must not be behind it. -/
def blank? (buffer : List UInt8) (start stop : Nat) : Option (List UInt8) :=
  if start ≤ min stop buffer.length then
    some (buffer.take start ++ (((buffer.take stop).drop start).map blankByte ++ buffer.drop stop))
  else none

def position? (needle : List UInt8) : List UInt8 → Option Nat
  | [] => none
  | b :: bytes =>
    if needle.isPrefixOf (b :: bytes) then some 0 else (position? needle bytes).map (· + 1)

def find? (needle bytes : List UInt8) (i : Nat) : Option Nat :=
  (position? needle (bytes.drop i)).map (i + ·)

/-- The offset of the first byte from an offset on that does not satisfy `p`. -/
def skip (p : UInt8 → Bool) (bytes : List UInt8) (i : Nat) : Nat :=
  i + ((bytes.drop i).takeWhile p).length

/-! ## Ends of tokens -/

def lineEnd (bytes : List UInt8) (i : Nat) : Nat :=
  if h : i < bytes.length then
    if bytes[i] = '\n'.toUInt8 ∨ ['?'.toUInt8, '>'.toUInt8].isPrefixOf (bytes.drop i) then i
    else lineEnd bytes (i + 1)
  else i
termination_by bytes.length - i

def stringEnd (bytes : List UInt8) (quote : UInt8) (i : Nat) : Nat :=
  if h : i < bytes.length then
    if bytes[i] = '\\'.toUInt8 then stringEnd bytes quote (i + 2)
    else if bytes[i] = quote then i + 1
    else stringEnd bytes quote (i + 1)
  else bytes.length
termination_by bytes.length - i

theorem le_stringEnd {bytes : List UInt8} (quote : UInt8) {i : Nat} (h : i ≤ bytes.length) :
    i ≤ stringEnd bytes quote i := by
  fun_induction stringEnd bytes quote i with
  | case1 i hi hescape ih =>
    by_cases hin : i + 2 ≤ bytes.length
    · exact Nat.le_of_add_right_le (ih hin)
    · rw [stringEnd, dif_neg (by omega)]
      exact h
  | case2 i hi hescape hquote => exact Nat.le_succ i
  | case3 i hi hescape hquote ih => exact Nat.le_of_succ_le (ih hi)
  | case4 i hi => exact h

def attributeEnd (bytes : List UInt8) (depth : Int) (i : Nat) : Nat :=
  if h : i < bytes.length then
    if bytes[i] = '['.toUInt8 then attributeEnd bytes (depth + 1) (i + 1)
    else if bytes[i] = ']'.toUInt8 then
      if depth - 1 = 0 then i + 1 else attributeEnd bytes (depth - 1) (i + 1)
    else if bytes[i] = '\''.toUInt8 ∨ bytes[i] = '"'.toUInt8 then
      attributeEnd bytes depth (stringEnd bytes bytes[i] (i + 1))
    else attributeEnd bytes depth (i + 1)
  else bytes.length
termination_by bytes.length - i
decreasing_by
  all_goals
    have hend := le_stringEnd bytes[i] (show i + 1 ≤ bytes.length from h)
    omega

/-- What masking does at a token: it blanks the bytes between two offsets, or none, and goes on. -/
structure Region where
  blanks : Option (Nat × Nat)
  next : Nat

def Region.apply? (region : Region) (buffer : List UInt8) : Option (List UInt8) :=
  match region.blanks with
  | some (start, stop) => blank? buffer start stop
  | none => some buffer

theorem slice?_bounds {bytes part : List UInt8} {start stop : Nat}
    (h : slice? bytes start stop = some part) :
    start ≤ stop ∧ stop ≤ bytes.length := by
  unfold slice? at h
  split at h
  · assumption
  · cases h

/-- The rest of a heredoc whose body begins at `bodyStart`, from the line at `lineStart` on. -/
def heredocBody? (bytes label : List UInt8) (bodyStart lineStart : Nat) : Option Region :=
  if _h : lineStart < bytes.length then
    let lineStop := (find? ['\n'.toUInt8] bytes lineStart).getD bytes.length
    match _hline : slice? bytes lineStart lineStop with
    | none => none
    | some line =>
      let trimmed := lineStart + (line.takeWhile (onByte isIndent)).length
      match slice? bytes trimmed lineStop with
      | none => none
      | some tail =>
        let after := trimmed + label.length
        if label.isPrefixOf tail && !bytes[after]?.any (onByte isIdentPart) then
          some ⟨some (bodyStart, trimmed), after⟩
        else heredocBody? bytes label bodyStart (lineStop + 1)
  else some ⟨some (bodyStart, bytes.length), bytes.length⟩
termination_by bytes.length - lineStart
decreasing_by
  have hbounds := slice?_bounds _hline
  omega

/-- The heredoc whose three angle brackets begin at `start`. Without a label they open none. -/
def heredoc? (bytes : List UInt8) (start : Nat) : Option Region :=
  let i := skip (onByte isIndent) bytes (start + 3)
  let labelStart := if bytes[i]?.any (onByte fun c => c = '\'' || c = '"') then i + 1 else i
  let labelStop := skip (onByte isIdentPart) bytes labelStart
  if labelStop = labelStart then some ⟨none, start + 3⟩
  else
    match slice? bytes labelStart labelStop with
    | none => none
    | some label =>
      match find? ['\n'.toUInt8] bytes labelStop with
      | none => some ⟨none, bytes.length⟩
      | some p => heredocBody? bytes label (p + 1) (p + 1)

/-- The token at the cursor; a single byte to keep if there is none. -/
def region? (bytes : List UInt8) (i : Nat) : Option Region :=
  match bytes[i]? with
  | none => none
  | some b =>
    let next := bytes[i + 1]?
    if b = '/'.toUInt8 ∧ next = some '/'.toUInt8 then
      some ⟨some (i, lineEnd bytes i), lineEnd bytes i⟩
    else if b = '#'.toUInt8 ∧ next = some '['.toUInt8 then
      some ⟨some (i, attributeEnd bytes 0 (i + 1)), attributeEnd bytes 0 (i + 1)⟩
    else if b = '#'.toUInt8 then some ⟨some (i, lineEnd bytes i), lineEnd bytes i⟩
    else if b = '/'.toUInt8 ∧ next = some '*'.toUInt8 then
      let stop := ((find? ['*'.toUInt8, '/'.toUInt8] bytes (i + 2)).map (· + 2)).getD bytes.length
      some ⟨some (i, stop), stop⟩
    else if b = '\''.toUInt8 ∨ b = '"'.toUInt8 ∨ b = '\x60'.toUInt8 then
      let stop := stringEnd bytes b (i + 1)
      some ⟨some (i + 1, max (stop - 1) (i + 1)), stop⟩
    else if ['<'.toUInt8, '<'.toUInt8, '<'.toUInt8].isPrefixOf (bytes.drop i) then heredoc? bytes i
    else some ⟨none, i + 1⟩

/-! ## The cursor -/

def run? (bytes buffer : List UInt8) (i : Nat) : Option (List UInt8) :=
  if _h : i < bytes.length then
    match region? bytes i with
    | none => none
    | some region =>
      match region.apply? buffer with
      | none => none
      | some buffer => if i < region.next then run? bytes buffer region.next else none
  else some buffer
termination_by bytes.length - i

/-- The masked buffer, unless an access fails or the cursor stands still. -/
def masked? (bytes : List UInt8) : Option (List UInt8) := run? bytes bytes 0

inductive Visits (bytes : List UInt8) : Nat → Prop
  | start : Visits bytes 0
  | next {i : Nat} {region : Region} (h : Visits bytes i) (hi : i < bytes.length)
      (hregion : region? bytes i = some region) : Visits bytes region.next

end SignatureInference.Source.Buffer
