import SignatureInference.Proofs.Editing.Order
import SignatureInference.Proofs.Placement.Places
import SignatureInference.Proofs.Source.MaskedNames

/-! # Whether a hint stands apart

The type of a parameter is put right in front of the variable. In the source no name can stand
there, and so touch the type, except for a word such as `public` that has nothing between itself and
the variable.
-/
namespace SignatureInference.Placement

open Text Source

theorem exists_isIdentPart_of_isPromotion {x w : List Char} (hw : isPromotion w = true) :
    ∃ c ∈ (x ++ w).getLast?, isIdentPart c = true := by
  obtain ⟨d, ds, rfl, -⟩ := exists_cons_of_isPromotion hw
  have hne : d :: ds ≠ [] := List.cons_ne_nil d ds
  refine ⟨(d :: ds).getLast hne, ?_,
    isIdentPart_of_isAlpha (isAlpha_of_isPromotion hw (List.getLast_mem hne))⟩
  rw [List.getLast?_append_of_ne_nil _ hne, List.getLast?_eq_some_getLast hne]
  rfl

/-- The place of a parameter's type in the source: a variable begins there, and a name that ends
there is a word in front of the parameter. -/
theorem exists_of_parameter_place {source : List Char} {i : Instruction} {index n : Nat}
    (htarget : i.target = .parameter index) (h : placeIn (mask source) i = .ok (.ok n)) :
    ∃ front back, source = front ++ back ∧ byteLength front = n ∧ beginsVariable back = true ∧
      ∀ c ∈ front.getLast?, isIdentPart c = true → ∃ x w, front = x ++ w ∧
      isPromotion w = true := by
  obtain ⟨-, -, f, close, -, -, -, hopen, hclosing, hplace⟩ := exists_of_placeIn h
  obtain ⟨hclose, hlt⟩ := hasAt_of_findClosing hopen rfl hclosing
  rw [htarget] at hplace
  obtain ⟨_, _, _, _, -, -, -, -, -, -, -, -, -, hvariable⟩ := belongs_of_placeIn h
  rw [htarget] at hvariable
  obtain ⟨shown, stop, lead, c, z, hmask, rfl, hstop, hc, hz, hlead⟩ :=
    exists_of_placeBetween_parameter hopen hclose hlt hplace
  have hcode : isCode c = true := by rcases hc with rfl | rfl | rfl <;> decide
  obtain ⟨front, back, rfl, hlen, hlast⟩ := exists_append_of_mask_code hcode hz hmask
  rw [← hlen, dropBytes_byteLength] at hvariable
  refine ⟨front, c :: back, rfl, hlen, hvariable.2.2, fun d hd hpart => ?_⟩
  -- the name is shown, and not in front of the comma or the parenthesis
  have hd := hlast d hd hpart
  rw [List.getLast?_append_of_ne_nil _ (List.cons_ne_nil stop lead)] at hd
  have hlead' : lead ≠ [] := by
    rintro rfl
    obtain rfl : stop = d := by simpa using hd
    rcases hstop with rfl | rfl <;> exact absurd hpart (by decide)
  have hd : d ∈ lead.getLast? := by
    rwa [← List.singleton_append, List.getLast?_append_of_ne_nil _ hlead'] at hd
  obtain ⟨x, w, rfl, hw, -⟩ := hlead.exists_word hd (isBlank_of_isIdentPart hpart)
  -- the word has no blanks, so that it stands in the source as it is shown
  have hvisible : ∀ d ∈ w ++ [c], d ≠ ' ' := by
    intro d hd
    rcases List.mem_append.mp hd with hd | hd
    · rintro rfl
      exact absurd (isAlpha_of_isPromotion hw hd) (by decide)
    · rw [List.mem_singleton.mp hd]
      rcases hc with rfl | rfl | rfl <;> decide
  obtain ⟨u, v, hsource, hu⟩ :=
    exists_append_of_mask (a := shown ++ stop :: x) (v := w ++ [c]) (z := z)
    (by simp) hvisible (by rw [hmask]; simp)
  have hcut : front ++ c :: back = (u ++ w) ++ ([c] ++ v) := by rw [hsource]; simp
  refine ⟨u, w, (append_inj_of_byteLength hcut ?_).1, hw⟩
  rw [hlen, byteLength_append u w, hu]
  simp only [byteLength_append, byteLength_cons]
  omega

/-- The type of a parameter is put in front of the variable, where it touches a name exactly if a
word such as `public` has nothing between itself and the variable. Then the source has the two as
one word. -/
theorem glued_iff_touches_modifier {source : String} {i : Instruction} {index : Nat} {e : Edit}
    (htarget : i.target = .parameter index) (h : locate source i = .ok (.ok e)) :
    ∃ front back, source.toList = front ++ back ∧
      e = .insertion (byteLength front) (i.type.render ++ " ") ∧
      beginsVariable back = true ∧
      (Edit.applyAll source [e]).map String.toList =
        .ok (front ++ (i.type.render.toList ++ ' ' :: back)) ∧
      ((∃ c ∈ front.getLast?, isIdentPart c = true) ↔ ∃ x w, front = x ++ w ∧
        isPromotion w = true) := by
  obtain ⟨hplace, hedit⟩ := Revision.locate_eq_ok h
  obtain ⟨front, back, hsource, hlen, hback, hword⟩ := exists_of_parameter_place htarget hplace
  have hedit : e = .insertion (byteLength front) (i.type.render ++ " ") := by
    rw [hedit, ← hlen, insertedText, htarget]
  refine ⟨front, back, hsource, hedit, hback, ?_, ?_⟩
  · have hboundary : isBoundary source.toList (byteLength front) = true := by
      rw [hsource]
      exact isBoundary_byteLength front back
    rw [hedit, Editor.applyAll_insertion hboundary, hsource, insertAt_byteLength]
    simp [Except.map]
  · constructor
    · rintro ⟨c, hc, hpart⟩
      exact hword c hc hpart
    · rintro ⟨x, w, rfl, hw⟩
      exact exists_isIdentPart_of_isPromotion hw

/-- A comment behind the word keeps it apart from the type. -/
theorem glued_iff_touches_modifier_comment :
    let source := "<?php class A \x7b function f(private/* a */$x) \x7b\x7d \x7d"
    let i : Instruction := ⟨⟨"A"⟩, "f", .parameter 0, ⟨"int", false⟩⟩
    locate source i = .ok (.ok (.insertion 41 "int ")) ∧
      ∃ front back, source.toList = front ++ back ∧
        Edit.insertion 41 "int " = .insertion (byteLength front) (i.type.render ++ " ") ∧
        beginsVariable back = true ∧
        (Edit.applyAll source [.insertion 41 "int "]).map String.toList =
          .ok (front ++ (i.type.render.toList ++ ' ' :: back)) ∧
        ((∃ c ∈ front.getLast?, isIdentPart c = true) ↔ ∃ x w, front = x ++ w ∧
          isPromotion w = true) := by
  intro source i
  have hlocate : locate source i = .ok (.ok (.insertion 41 "int ")) := by decide +kernel
  exact ⟨hlocate, glued_iff_touches_modifier rfl hlocate⟩

/-- A word that touches the variable is glued to the type. -/
theorem hint_glued_to_modifier :
    let source := "<?php class A \x7b function f(public$x) \x7b\x7d \x7d"
    locate source ⟨⟨"A"⟩, "f", .parameter 0, ⟨"int", false⟩⟩ = .ok (.ok (.insertion 33 "int ")) ∧
      slice? source.toList 32 33 = some ['c'] ∧ isIdentPart 'c' = true ∧
      Edit.splice source.toList (.insertion 33 "int ") =
        "<?php class A \x7b function f(publicint $x) \x7b\x7d \x7d".toList := by
  decide +kernel

end SignatureInference.Placement
