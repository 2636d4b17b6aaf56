import SignatureInference.Proofs.Json.Reading
import SignatureInference.Proofs.Text.Lines
import SignatureInference.Proofs.Text.Lowercase
import SignatureInference.Proofs.Text.Utf8
import SignatureInference.Trace.FileStorage

/-! # Records on lines

A record is read back from the line it is written on, so the records of a file are those that were
written to it, in their order.
-/
namespace SignatureInference

namespace Json

theorem uint64?_ofNat (n : UInt64) : (ofNat n.toNat).uint64? = some n := by
  have hdigits : digitsValue (Nat.toDigits 10 n.toNat) = n.toNat := by
    have hvalue := Nat.ofDigitChars_ten_toDigits (n := n.toNat)
    rw [Nat.ofDigitChars_eq_foldl] at hvalue
    simpa only [digitsValue, Nat.mul_comm] using hvalue
  have hall : (Nat.toDigits 10 n.toNat).all Char.isDigit = true := by
    rw [List.all_eq_true]
    exact fun c hc => Nat.isDigit_of_mem_toDigits (by decide) (by decide) hc
  have hsize : n.toNat < UInt64.size := n.toNat_lt
  rw [ofNat, Nat.toString_eq_ofList_toDigits, uint64?, String.toList_ofList, hdigits, hall]
  simp [hsize]

theorem mapM_text?_ofString (texts : List String) :
    (texts.map ofString).mapM text? = some texts := by
  induction texts with
  | nil => rfl
  | cons text texts ih =>
    rw [List.map_cons, List.mapM_cons, ih]
    rfl

end Json

namespace Trace

/-- Records are written as objects, and read back from them. -/
structure Faithful {α : Type} (json : α → Json) (ofJson? : Json → Option α) : Prop where
  ofJson?_json : ∀ a, ofJson? (json a) = some a
  plain : ∀ a, (json a).Plain
  begins : ∀ a, ∃ cs, (json a).compact = '\x7b' :: cs

theorem Entry.faithful : Faithful Entry.json Entry.ofJson? where
  ofJson?_json e := by
    have hfields : fieldValues? fieldNames e.json =
        some [.ofNat e.call.toNat, .ofString e.function, .bool e.userDefined, .ofString e.file,
          .array (e.parameters.map .ofString)] := rfl
    rw [ofJson?, hfields]
    simp only [Option.bind_eq_bind, Option.bind_some, Json.uint64?_ofNat]
    have hparameters := Json.mapM_text?_ofString e.parameters
    simp only [Json.ofString, Json.text?, Json.bool?, Json.items?, Option.bind_some]
      at hparameters ⊢
    rw [hparameters]
    rfl
  plain e := by
    refine .object fun f hf => ?_
    simp only [fieldNames, List.zip_cons_cons, List.zip_nil_right, List.mem_cons, List.not_mem_nil,
      or_false] at hf
    rcases hf with rfl | rfl | rfl | rfl | rfl
    · exact .number _
    · exact .text _
    · exact .bool _
    · exact .text _
    · refine .array fun j hj => ?_
      obtain ⟨text, -, rfl⟩ := List.mem_map.mp hj
      exact .text text
  begins e := ⟨_, Json.compact_ofFields_cons _ _⟩

theorem Return.faithful : Faithful Return.json Return.ofJson? where
  ofJson?_json r := by
    have hfields : fieldValues? fieldNames r.json = some [.ofNat r.call.toNat, .ofString r.value] :=
      rfl
    rw [ofJson?, hfields]
    simp only [Option.bind_eq_bind, Option.bind_some, Json.uint64?_ofNat]
    rfl
  plain r := by
    refine .object fun f hf => ?_
    simp only [fieldNames, List.zip_cons_cons, List.zip_nil_right, List.mem_cons, List.not_mem_nil,
      or_false] at hf
    rcases hf with rfl | rfl
    · exact .number _
    · exact .text _
  begins r := ⟨_, Json.compact_ofFields_cons _ _⟩

/-! ## Lines of a file -/

theorem toList_join_lineOf (js : List Json) :
    (String.join (js.map lineOf)).toList = js.flatMap fun j => j.compact ++ ['\n'] := by
  rw [String.toList_join, List.flatMap_map]
  refine List.flatMap_congr fun j _ => ?_
  rw [lineOf, String.toList_ofList]

theorem contentLines_text {js : List Json} (h : ∀ j ∈ js, j.Plain) :
    contentLines (.text (String.join (js.map lineOf))) = js.map fun j => .ok j.compact := by
  have hbytes : (Contents.text (String.join (js.map lineOf))).bytes =
      (js.map fun j => j.compact.flatMap String.utf8EncodeChar).flatMap (· ++ [10]) := by
    rw [Contents.bytes, Text.toList_toUTF8, toList_join_lineOf, List.flatMap_assoc,
      List.flatMap_map]
    refine List.flatMap_congr fun j _ => ?_
    rw [List.flatMap_append]
    rfl
  have hlines : ∀ line ∈ js.map fun j => j.compact.flatMap String.utf8EncodeChar, 10 ∉ line := by
    intro line hline hfeed
    obtain ⟨j, hj, rfl⟩ := List.mem_map.mp hline
    obtain ⟨c, hc, hmem⟩ := List.mem_flatMap.mp hfeed
    rw [Text.eq_lineFeed_of_mem_utf8EncodeChar hmem] at hc
    exact (h j hj).lineFeed_not_mem hc
  rw [contentLines, hbytes, Text.byteLines_flatMap_lineFeed hlines, List.map_map]
  refine List.map_congr_left fun j _ => ?_
  simp only [Function.comp_apply, Text.decode?_flatMap_utf8EncodeChar]

section

variable {α : Type} {json : α → Json} {ofJson? : Json → Option α}
  (hfaithful : Faithful json ofJson?)

include hfaithful

theorem readRecords_lines (path : Path) (number : Nat) (records : List α) :
    readRecords ofJson? path number (records.map fun a => .ok (json a).compact) = .ok records := by
  induction records generalizing number with
  | nil => rfl
  | cons a records ih =>
    have hblank : (Text.trim (json a).compact).isEmpty = false := by
      obtain ⟨cs, hcs⟩ := hfaithful.begins a
      have hstart : Text.trimStart ('\x7b' :: cs) = '\x7b' :: cs := rfl
      have hend := Text.trimEnd_stop (s := '\x7b') rfl [] cs
      rw [hcs, Text.trim, hstart]
      rw [List.nil_append, List.nil_append] at hend
      rw [hend]
      rfl
    have hread : (Json.read? (json a).compact).bind ofJson? = some a := by
      rw [Json.read?_compact (hfaithful.plain a), Option.bind_some, hfaithful.ofJson?_json]
    rw [List.map_cons, readRecords, hblank, hread]
    simp only [ih]
    rfl

theorem readRecords_contentLines (path : Path) (records : List α) :
    readRecords ofJson? path 1
      (contentLines (.text (String.join ((records.map json).map lineOf)))) =
      .ok records := by
  rw [contentLines_text, List.map_map]
  · exact readRecords_lines hfaithful path 1 records
  · intro j hj
    obtain ⟨a, -, rfl⟩ := List.mem_map.mp hj
    exact hfaithful.plain a

end

end Trace
end SignatureInference
