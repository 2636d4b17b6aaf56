import SignatureInference.Php.Declarations
import SignatureInference.Proofs.Text.Search

/-! # The doc comment of a method

A method gets the text from the last beginning of a doc comment to the last end of a comment, if
only modifiers and attributes follow it. The two belong to one comment exactly if a doc comment
begins behind every earlier end. Otherwise the text runs from an earlier doc comment, which may be
that of another method, over the code behind it to the end of a comment that is no doc comment.
-/
namespace SignatureInference.Php

open Text

/-- What may stand between a doc comment and what it belongs to. -/
def onlyModifiers (text : List Char) : Bool :=
  (words text).all fun word =>
    modifierWords.contains (String.ofList word) || startsWith "#[".toList word

/-- A text in which `/**` stands for the last time in front of `body`, and then `*/` for the last
time in front of `after`, where only modifiers follow. -/
structure DocCommentIn (text front body after : List Char) : Prop where
  eq : text = front ++ ("/**".toList ++ (body ++ ("*/".toList ++ after)))
  last_beginning : ¬"/**".toList <:+: body
  last_end : ¬"*/".toList <:+: after
  modifiers : onlyModifiers after = true

def EndsOnce (comment : List Char) : Prop := ∀ x y, comment = x ++ ("*/".toList ++ y) → y = []

variable {before front body after : List Char}

theorem docCommentText?_eq_some_iff {text : String} :
    docCommentText? before = some text ↔
      ∃ front body after, DocCommentIn before front body after ∧
        text = String.ofList ("/**".toList ++ body ++ "*/".toList) := by
  have hbeginning : '/' ∉ "**".toList := by decide
  have hend : '*' ∉ "/".toList := by decide
  constructor
  · intro h
    obtain ⟨⟨upTo, after⟩, hcut, h⟩ := Option.bind_eq_some_iff.mp h
    obtain ⟨⟨front, body⟩, hopen, h⟩ := Option.bind_eq_some_iff.mp h
    obtain ⟨hbefore, hafter⟩ := (breakOnLast?_eq_some_iff hend).mp hcut
    obtain ⟨hupTo, hbody⟩ := (breakOnLast?_eq_some_iff hbeginning).mp hopen
    simp only at h
    split at h
    · next hmodifiers =>
      cases h
      refine ⟨front, body, after, ⟨?_, hbody, hafter, hmodifiers⟩, rfl⟩
      rw [hbefore, hupTo]
      simp
    · cases h
  · rintro ⟨front, body, after, h, rfl⟩
    have hcut : breakOnLast? "*/".toList before = some (front ++ ("/**".toList ++ body), after) :=
      (breakOnLast?_eq_some_iff hend).mpr ⟨by simp [h.eq], h.last_end⟩
    have hopen : breakOnLast? "/**".toList (front ++ ("/**".toList ++ body)) = some (front, body) :=
      (breakOnLast?_eq_some_iff hbeginning).mpr ⟨rfl, h.last_beginning⟩
    simp only [docCommentText?, hcut, hopen, Option.bind_eq_bind, Option.bind_some]
    exact if_pos h.modifiers

/-- The comment is a single one exactly if a doc comment begins behind every earlier end of a
comment. -/
theorem DocCommentIn.endsOnce_iff (h : DocCommentIn before front body after) :
    EndsOnce ("/**".toList ++ body ++ "*/".toList) ↔
      ∀ x y, front ++ ("/**".toList ++ body) = x ++ ("*/".toList ++ y) →
      "/**".toList <:+: '/' :: y := by
  constructor
  · intro honce x y hxy
    have hxy : front ++ ("/**".toList ++ body) = (x ++ ['*']) ++ '/' :: y := by simpa using hxy
    rcases List.append_eq_append_iff.mp hxy with ⟨w, hx, hw⟩ | ⟨w, -, hw⟩
    · -- the earlier end is inside the comment
      rcases List.eq_nil_or_concat w with rfl | ⟨w, c, rfl⟩
      · exact ⟨[], body, by simpa using hw⟩
      · obtain rfl : c = '*' := by
          have := congrArg List.getLast? hx
          simpa using this.symm
        have := honce w (y ++ "*/".toList) (by rw [hw]; simp)
        simp at this
    · exact ⟨w, body, by simpa using hw.symm⟩
  · intro hlater x y hxy
    by_contra hy
    -- the other end is in front of the one that the comment has itself
    obtain ⟨z, hinside⟩ : ∃ z, "/**".toList ++ body = (x ++ ['*']) ++ '/' :: z := by
      rcases List.append_eq_append_iff.mp hxy with ⟨w, -, hw⟩ | ⟨w, hw, hrest⟩
      · have hlength := congrArg List.length hw
        simp only [List.length_append] at hlength
        exact absurd (List.length_eq_zero_iff.mp (by omega)) hy
      · rcases w with _ | ⟨c, _ | ⟨d, z⟩⟩
        · exact absurd (by simpa using hrest) hy
        · simp at hrest
        · obtain ⟨rfl, rfl, -⟩ : '*' = c ∧ '/' = d ∧ _ := by simpa using hrest
          exact ⟨z, by rw [hw]; simp⟩
    have hbegins := hlater (front ++ x) z (by rw [hinside]; simp)
    -- what begins there begins behind the slash of the comment, so in its body
    apply h.last_beginning
    cases x with
    | nil => simp at hinside
    | cons c x =>
      have hrest : '*' :: '*' :: body = (x ++ ['*']) ++ '/' :: z := (List.cons.inj hinside).2
      have hwithin : "/**".toList <:+: '*' :: '*' :: body := by
        rw [hrest]
        exact hbegins.trans (List.suffix_append _ _).isInfix
      simpa [List.infix_cons_iff, List.cons_prefix_cons] using hwithin

/-- A method has the doc comment that ends last in front of it, read from the last beginning of one
on; this is a single comment exactly if a doc comment begins behind every earlier end of a
comment. -/
theorem single_doc_comment_iff (source : List Char) (owner : ClassName) (m : MethodNode) :
    (∀ doc, (m.method source owner).doc = some doc ↔
      ∃ front body after, DocCommentIn (takeBytes m.start source) front body after ∧
        doc = DocComment.ofText (String.ofList ("/**".toList ++ body ++ "*/".toList))) ∧
    ∀ front body after, DocCommentIn (takeBytes m.start source) front body after →
      (EndsOnce ("/**".toList ++ body ++ "*/".toList) ↔
        ∀ x y, front ++ ("/**".toList ++ body) = x ++ ("*/".toList ++ y) →
        "/**".toList <:+: '/' :: y) := by
  constructor
  · intro doc
    simp only [MethodNode.method, Option.map_eq_some_iff, docCommentText?_eq_some_iff]
    constructor
    · rintro ⟨text, ⟨front, body, after, h, rfl⟩, rfl⟩
      exact ⟨front, body, after, h, rfl⟩
    · rintro ⟨front, body, after, h, rfl⟩
      exact ⟨_, ⟨front, body, after, h, rfl⟩, rfl⟩
  · intro front body after h
    exact h.endsOnce_iff

theorem single_doc_comment_iff_plain_comment :
    DocCommentIn (takeBytes 20 "/** A */ f; /* B */ g;".toList)
      [] " A */ f; /* B ".toList " ".toList ∧
      ¬EndsOnce "/** A */ f; /* B */".toList := by
  have hcomment : DocCommentIn (takeBytes 20 "/** A */ f; /* B */ g;".toList)
      [] " A */ f; /* B ".toList " ".toList := ⟨by decide, by decide, by decide, by decide⟩
  have hiff := (single_doc_comment_iff "/** A */ f; /* B */ g;".toList ⟨"A"⟩
    ⟨20, ⟨20, 21⟩, [], false⟩).2 _ _ _ hcomment
  refine ⟨hcomment, ?_⟩
  intro honce
  have hbegins := hiff.mp honce "/** A ".toList " f; /* B ".toList (by decide)
  exact absurd hbegins (by decide)

/-- A method behind a plain comment gets the doc comment of the method before it, with the code
between. -/
theorem doc_comment_of_method_before :
    docCommentText? (takeBytes 20 "/** A */ f; /* B */ g;".toList) = some "/** A */ f; /* B */" ∧
      ¬EndsOnce "/** A */ f; /* B */".toList ∧
      let source := "<?php class A \x7b /** @return int */ function f() \x7b\x7d " ++
        "/* B */ function g() \x7b\x7d \x7d"
      (declarations ⟨"src/A.php"⟩ source).toOption.map
          (fun d => d.methods.map fun m => (m.name, m.doc.bind (·.returnType))) =
        some [("f", some "int"), ("g", some "int")] := by
  refine ⟨by decide, ?_, by decide +kernel⟩
  intro honce
  have hnil := honce "/** A ".toList " f; /* B */".toList (by decide)
  simp at hnil

end SignatureInference.Php
