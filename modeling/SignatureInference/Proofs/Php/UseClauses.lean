import SignatureInference.Php.Declarations
import SignatureInference.Proofs.Text.Lowercase
import SignatureInference.Proofs.Text.Offsets
import SignatureInference.Proofs.Text.Search
import SignatureInference.Proofs.Text.Splitting
import SignatureInference.Proofs.Text.Trimming

/-! # Clauses of imports

A clause names a class and may give it an alias behind the word `as`. The reader looks for this word
in the lower-case form of the clause, with a space on either side, and cuts the clause itself at the
offset where it found the word. So a clause with an alias is read as it is meant exactly if these
spaces are there and the lower-case form of the name is about as long as the name.
-/
namespace SignatureInference.Php

open Text

/-! ## What is written -/

structure Gap where
  text : List Char
  blank : ∀ c ∈ text, isSpace c = true

structure Identifier where
  text : List Char
  ne_nil : text ≠ []
  parts : ∀ c ∈ text, isNamePart c = true

/-- Identifiers between backslashes, with or without a backslash in front. -/
structure WrittenName where
  rooted : Bool
  spaces : List Identifier
  last : Identifier

namespace WrittenName

def plain (n : WrittenName) :
    List Char := n.spaces.flatMap (fun s => s.text ++ ['\\']) ++ n.last.text

def text (n : WrittenName) : List Char := if n.rooted then '\\' :: n.plain else n.plain

end WrittenName

/-- The word `as`, in any case, between blanks and in front of an alias. -/
structure Aliasing where
  before : Gap
  word : List Char
  after : Gap
  given : Identifier
  before_ne_nil : before.text ≠ []
  word_eq : word.map Char.toLower = ['a', 's']
  after_ne_nil : after.text ≠ []

def Aliasing.text (a : Aliasing) : List Char :=
  a.before.text ++ (a.word ++ (a.after.text ++ a.given.text))

structure UseClause where
  name : WrittenName
  aliasing? : Option Aliasing

namespace UseClause

def text (c : UseClause) : List Char := c.name.text ++ (c.aliasing?.map Aliasing.text).getD []

/-- The name that a clause makes known: the alias, or else the last part of the name. -/
def key (c : UseClause) : List Char := (c.aliasing?.map (·.given.text)).getD c.name.last.text

end UseClause

def Tight (cs : List Char) : Prop := cs.head?.any isBlank = false ∧ cs.getLast?.any isBlank = false

instance (cs : List Char) : Decidable (Tight cs) := inferInstanceAs (Decidable (_ ∧ _))

/-! ## Characters of names and blanks -/

def isNameChar (c : Char) : Bool := isNamePart c || c == '\\'

theorem mem_of_isSpace {c : Char} (h : isSpace c = true) :
    c ∈ [' ', '\t', '\n', '\r', '\x0b', '\x0c'] := by
  simp only [isSpace, Bool.or_eq_true, beq_iff_eq] at h
  rcases h with ((((rfl | rfl) | rfl) | rfl) | h) | h
  · decide
  · decide
  · decide
  · decide
  · rw [← Char.ofNat_toNat c, h]
    decide
  · rw [← Char.ofNat_toNat c, h]
    decide

theorem isSpace_spec {c : Char} (h : isSpace c = true) :
    isBlank c = true ∧ isAscii c = true ∧ c.utf8Size = 1 ∧ c.toLower = c ∧ isNameChar c = false ∧
      c ≠ 'a' := by
  have hall : ∀ c ∈ [' ', '\t', '\n', '\r', '\x0b', '\x0c'], isBlank c = true ∧ isAscii c = true ∧
      c.utf8Size = 1 ∧ c.toLower = c ∧ isNameChar c = false ∧ c ≠ 'a' := by decide
  exact hall c (mem_of_isSpace h)

namespace Gap

variable (g : Gap)

theorem isBlank_of_mem : ∀ c ∈ g.text, isBlank c = true :=
  fun c hc => (isSpace_spec (g.blank c hc)).1

theorem byteLength_text : byteLength g.text = g.text.length :=
  byteLength_of_size_one fun c hc => (isSpace_spec (g.blank c hc)).2.2.1

theorem byteLength_take (n : Nat) : byteLength (g.text.take n) = min n g.text.length := by
  rw [byteLength_of_size_one fun c hc => (isSpace_spec (g.blank c (List.mem_of_mem_take hc))).2.2.1,
    List.length_take]

theorem byteLength_drop (n : Nat) : byteLength (g.text.drop n) = g.text.length - n := by
  rw [byteLength_of_size_one fun c hc => (isSpace_spec (g.blank c (List.mem_of_mem_drop hc))).2.2.1,
    List.length_drop]

theorem map_toLower : g.text.map Char.toLower = g.text := by
  rw [List.map_congr_left fun c hc => (isSpace_spec (g.blank c hc)).2.2.2.1, List.map_id']

end Gap

namespace WrittenName

variable (n : WrittenName)

theorem isNameChar_of_mem : ∀ c ∈ n.text, isNameChar c = true := by
  have hpart : ∀ (i : Identifier), ∀ c ∈ i.text, isNameChar c = true := by
    intro i c hc
    rw [isNameChar, i.parts c hc]
    rfl
  have hplain : ∀ c ∈ n.plain, isNameChar c = true := by
    intro c hc
    rw [plain, List.mem_append, List.mem_flatMap] at hc
    rcases hc with ⟨s, -, hc⟩ | hc
    · rcases List.mem_append.mp hc with hc | hc
      · exact hpart s c hc
      · rw [List.mem_singleton.mp hc]
        decide
    · exact hpart _ c hc
  intro c hc
  rw [text] at hc
  split at hc
  · rcases List.mem_cons.mp hc with rfl | hc
    · decide
    · exact hplain c hc
  · exact hplain c hc

theorem plain_suffix : n.plain <:+ n.text := by
  rw [text]
  split
  · exact List.suffix_cons _ _
  · exact List.suffix_refl _

theorem getLast?_text : n.text.getLast? = n.last.text.getLast? := by
  obtain ⟨u, hu⟩ := n.plain_suffix
  rw [← hu, plain, ← List.append_assoc, List.getLast?_append_of_ne_nil _ n.last.ne_nil]

theorem not_mem_text {c : Char} (h : isNameChar c = false) : c ∉ n.text := by
  intro hc
  rw [n.isNameChar_of_mem c hc] at h
  cases h

theorem plain_ne_nil : n.plain ≠ [] := by
  rw [plain]
  exact List.append_ne_nil_of_right_ne_nil _ n.last.ne_nil

theorem text_ne_nil : n.text ≠ [] := by
  intro h
  exact n.plain_ne_nil (List.suffix_nil.mp (h ▸ n.plain_suffix))

theorem head?_plain : n.plain.head?.any (· == '\\') = false := by
  have hfirst : ∀ (i : Identifier) (z : List Char),
      (i.text ++ z).head?.any (· == '\\') = false := by
    intro i z
    obtain ⟨c, cs, htext⟩ := List.exists_cons_of_ne_nil i.ne_nil
    have hc := i.parts c (by rw [htext]; exact List.mem_cons_self)
    rw [htext, List.cons_append, List.head?_cons, Option.any_some, beq_eq_false_iff_ne]
    rintro rfl
    exact absurd hc (by decide)
  rw [plain]
  cases n.spaces with
  | nil => simpa using hfirst n.last []
  | cons i is =>
    rw [List.flatMap_cons, List.append_assoc, List.append_assoc]
    exact hfirst i _

theorem dropLeadingBackslashes_text : ClassName.dropLeadingBackslashes n.text = n.plain := by
  rw [text, ClassName.dropLeadingBackslashes]
  split
  · rw [List.dropWhile_cons_of_pos (by decide), dropWhile_of_head n.head?_plain]
  · exact dropWhile_of_head n.head?_plain

theorem lastSegment_plain : Imports.lastSegment n.plain = n.last.text := by
  have hlast : '\\' ∉ n.last.text := fun h => absurd (n.last.parts _ h) (by decide)
  rcases List.eq_nil_or_concat' n.spaces with hnil | ⟨is, i, hconcat⟩
  · have hnone : breakOnLast? ['\\'] n.last.text = none := breakOnLast?_eq_none.mpr hlast
    rw [plain, hnil, List.flatMap_nil, List.nil_append, Imports.lastSegment, hnone]
  · have hcut : breakOnLast? ['\\'] n.plain =
        some (is.flatMap (fun s => s.text ++ ['\\']) ++ i.text, n.last.text) := by
      rw [breakOnLast?_eq_some]
      exact ⟨by simp [plain, hconcat], hlast⟩
    rw [Imports.lastSegment, hcut]

end WrittenName

/-! ## The word between name and alias -/

def asWord : List Char := " as ".toList

theorem breakOn?_asWord_append {x : List Char} (hx : ' ' ∉ x) (z : List Char) :
    breakOn? asWord (x ++ z) = (breakOn? asWord z).map fun p => (x ++ p.1, p.2) :=
  breakOn?_append_of_not_mem hx

theorem breakOn?_asWord_blanks {g z : List Char} {c : Char} (hg : ∀ d ∈ g, isSpace d = true)
    (hc : isSpace c = true) :
    breakOn? asWord (g ++ c :: z) = (breakOn? asWord (c :: z)).map fun p => (g ++ p.1, p.2) := by
  induction g with
  | nil => simp
  | cons d g ih =>
    have hnext : ∃ e rest, g ++ c :: z = e :: rest ∧ isSpace e = true := by
      cases g with
      | nil => exact ⟨c, z, rfl, hc⟩
      | cons e g => exact ⟨e, g ++ c :: z, rfl, hg e (by simp)⟩
    obtain ⟨e, rest, hrest, he⟩ := hnext
    have hdrop : dropHead? asWord (d :: (g ++ c :: z)) = none := by
      have hne : 'a' ≠ e := Ne.symm (isSpace_spec he).2.2.2.2.2
      rw [hrest]
      simp [asWord, dropHead?, hne]
    rw [List.cons_append, breakOn?_cons_of_none hdrop,
      ih fun x hx => hg x (List.mem_cons_of_mem _ hx), Option.map_map]
    rfl

theorem breakOn?_asWord_eq_none {cs : List Char} (h : ' ' ∉ cs) : breakOn? asWord cs = none := by
  rw [breakOn?_eq_none_iff]
  intro hword
  exact h (hword.subset (by decide))

theorem breakOn?_asWord_gap (k : Gap) {y : List Char} (hy : ' ' ∉ y) :
    breakOn? asWord (k.text ++ y) = none := by
  rcases List.eq_nil_or_concat' k.text with hnil | ⟨v, d, hv⟩
  · rw [hnil, List.nil_append, breakOn?_asWord_eq_none hy]
  · have hblank : ∀ e ∈ v, isSpace e = true := fun e he => k.blank e (by simp [hv, he])
    have hd : isSpace d = true := k.blank d (by simp [hv])
    have hdrop : dropHead? asWord (d :: y) = none := by
      cases h : dropHead? asWord (d :: y) with
      | none => rfl
      | some rest =>
        have hcut : y = 'a' :: 's' :: ' ' :: rest := (List.cons.inj (eq_append_of_dropHead? h)).2
        exact absurd (by simp [hcut]) hy
    rw [hv, List.append_assoc, List.singleton_append, breakOn?_asWord_blanks hblank hd,
      breakOn?_cons_of_none hdrop, breakOn?_asWord_eq_none hy]
    rfl

/-- Where the word is found between two gaps: between the last blank of the first and the first
blank of the second, if both are spaces. -/
theorem breakOn?_asWord {x y : List Char} (g k : Gap) (hg : g.text ≠ []) (hk : k.text ≠ [])
    (hx : ' ' ∉ x) (hy : ' ' ∉ y) :
    breakOn? asWord (x ++ (g.text ++ ('a' :: 's' :: (k.text ++ y)))) =
      if g.text.getLast? = some ' ' ∧ k.text.head? = some ' ' then
        some (x ++ g.text.dropLast, k.text.tail ++ y)
      else none := by
  obtain ⟨u, c, hu⟩ := (List.eq_nil_or_concat' g.text).resolve_left hg
  obtain ⟨d, v, hv⟩ := List.exists_cons_of_ne_nil hk
  have hblank : ∀ e ∈ u, isSpace e = true := fun e he => g.blank e (by simp [hu, he])
  have hc : isSpace c = true := g.blank c (by simp [hu])
  have hcut : x ++ (g.text ++ ('a' :: 's' :: (k.text ++ y))) =
      x ++ (u ++ c :: 'a' :: 's' :: d :: (v ++ y)) := by simp [hu, hv]
  rw [hcut, breakOn?_asWord_append hx, breakOn?_asWord_blanks hblank hc, hu, hv,
    List.getLast?_concat, List.head?_cons, List.dropLast_concat, List.tail_cons]
  split
  · next h =>
    obtain ⟨⟨rfl⟩, ⟨rfl⟩⟩ := h
    have hfound : breakOn? asWord (' ' :: 'a' :: 's' :: ' ' :: (v ++ y)) = some ([], v ++ y) :=
      breakOn?_append_self (by decide) (v ++ y)
    rw [hfound]
    simp
  · next h =>
    have hdrop : dropHead? asWord (c :: 'a' :: 's' :: d :: (v ++ y)) = none := by
      simp only [Option.some.injEq, not_and] at h
      by_cases hspace : ' ' = c
      · have hne : ' ' ≠ d := fun hd => h hspace.symm hd.symm
        simp [asWord, dropHead?, hne]
      · simp [asWord, dropHead?, hspace]
    have hgap : breakOn? asWord (d :: (v ++ y)) = none := by
      simpa [hv] using breakOn?_asWord_gap k hy
    have hrest : breakOn? asWord (['a', 's'] ++ d :: (v ++ y)) = none := by
      rw [breakOn?_asWord_append (by decide), hgap]
      rfl
    rw [List.cons_append, List.singleton_append] at hrest
    rw [breakOn?_cons_of_none hdrop, hrest]
    rfl

namespace Aliasing

variable (a : Aliasing)

theorem word_spec :
    ∀ c ∈ a.word, isAscii c = true ∧ isBlank c = false ∧ c.utf8Size = 1 ∧ isNameChar c = true := by
  intro c hc
  have hletter : c.toLower ∈ ['a', 's'] := by
    rw [← a.word_eq]
    exact List.mem_map_of_mem hc
  by_cases hupper : c.isUpper = true
  · have hrange := isUpper_iff.mp hupper
    have hall : ∀ n ∈ List.range' 65 26, isAscii (Char.ofNat n) = true ∧
      isBlank (Char.ofNat n) = false ∧
        (Char.ofNat n).utf8Size = 1 ∧ isNameChar (Char.ofNat n) = true := by decide
    simpa using hall c.toNat (List.mem_range'_1.mpr (by omega))
  · rw [toLower_of_not_isUpper (by simpa using hupper)] at hletter
    have hall : ∀ d ∈ ['a', 's'], isAscii d = true ∧ isBlank d = false ∧ d.utf8Size = 1 ∧
        isNameChar d = true := by decide
    exact hall c hletter

theorem length_word : a.word.length = 2 := by
  rw [← List.length_map (f := Char.toLower), a.word_eq]
  rfl

theorem byteLength_word : byteLength a.word = 2 := by
  rw [byteLength_of_size_one fun c hc => (a.word_spec c hc).2.2.1, a.length_word]

theorem exists_word : ∃ c d, a.word = [c, d] := List.length_eq_two.mp a.length_word

/-- There is a space on either side of the word. -/
def Spaced : Prop := a.before.text.getLast? = some ' ' ∧ a.after.text.head? = some ' '

instance : Decidable a.Spaced := inferInstanceAs (Decidable (_ ∧ _))

/-- The offset of the word in the lower-case form of a clause, taken as an offset of the clause,
lies between the name and the word, and the fourth byte from there between the word and the
alias. -/
def CutsApart (name : List Char) : Prop :=
  byteLength name ≤ byteLength (lower name) + 1 ∧ byteLength (lower name) ≤ byteLength name + 1 ∧
    byteLength name + 1 ≤ byteLength (lower name) + a.before.text.length ∧
    byteLength (lower name) + 1 ≤ byteLength name + a.after.text.length

instance (name : List Char) : Decidable (a.CutsApart name) :=
  inferInstanceAs (Decidable (_ ∧ _ ∧ _ ∧ _))

theorem not_mem_given : ' ' ∉ a.given.text := fun h => absurd (a.given.parts _ h) (by decide)

theorem exists_breakOn? {name : List Char} (hname : ' ' ∉ name) :
    ∃ u v, byteLength u + 1 = byteLength (lower name) + a.before.text.length ∧
      breakOn? asWord (lower (name ++ a.text)) = if a.Spaced then some (u, v) else none := by
  have hascii : ∀ c ∈ a.before.text ++ (a.word ++ a.after.text), isAscii c = true := by
    intro c hc
    rcases List.mem_append.mp hc with hc | hc
    · exact (isSpace_spec (a.before.blank c hc)).2.1
    · rcases List.mem_append.mp hc with hc | hc
      · exact (a.word_spec c hc).1
      · exact (isSpace_spec (a.after.blank c hc)).2.1
  obtain ⟨x, y, hlower, hlength, hmem⟩ := exists_lower_around hascii name a.given.text
  have hspace := hmem ' ' (by decide) (by decide)
  have hfound := breakOn?_asWord a.before a.after a.before_ne_nil a.after_ne_nil
    (fun hx => hname (hspace.1 hx)) fun hy => a.not_mem_given (hspace.2 hy)
  have hform : lower (name ++ a.text) =
      x ++ (a.before.text ++ ('a' :: 's' :: (a.after.text ++ y))) := by
    rw [List.map_append, List.map_append, a.before.map_toLower, a.word_eq,
      a.after.map_toLower] at hlower
    simpa [text] using hlower
  have hdropLast : byteLength a.before.text.dropLast + 1 = a.before.text.length := by
    have hpos : 0 < a.before.text.length := List.length_pos_of_ne_nil a.before_ne_nil
    rw [byteLength_of_size_one fun c hc =>
      (isSpace_spec (a.before.blank c (List.mem_of_mem_dropLast hc))).2.2.1, List.length_dropLast]
    omega
  refine ⟨_, _, ?_, hform ▸ hfound⟩
  rw [byteLength_append]
  omega

variable {a}

theorem splitAlias_of_not_spaced {name : List Char} (hname : ' ' ∉ name) (h : ¬a.Spaced) :
    Imports.splitAlias (name ++ a.text) = .ok (name ++ a.text, none) := by
  obtain ⟨u, v, -, hfound⟩ := a.exists_breakOn? hname
  rw [if_neg h] at hfound
  rw [Imports.splitAlias, show " as ".toList = asWord from rfl, hfound]

/-- With the spaces there, a clause is cut at the offset of the word in the lower-case form. -/
theorem splitAlias_of_spaced {name m k : List Char} (hname : ' ' ∉ name) (h : a.Spaced) :
    Imports.splitAlias (name ++ a.text) = .ok (m, some k) ↔
      ∃ u b v, name ++ a.text = u ++ (b ++ v) ∧
        byteLength u + 1 = byteLength (lower name) + a.before.text.length ∧ byteLength b = 4 ∧
        trim u = m ∧ trim v = k := by
  obtain ⟨x, y, hlength, hfound⟩ := a.exists_breakOn? hname
  rw [if_pos h] at hfound
  rw [Imports.splitAlias, show " as ".toList = asWord from rfl, hfound]
  simp only
  constructor
  · intro hsplit
    split at hsplit
    · cases hsplit
    · next u r hu =>
      split at hsplit
      · cases hsplit
      · next b v hb =>
        obtain ⟨hcut, hlen⟩ := eq_append_of_splitAt? hu
        obtain ⟨rfl, hfour⟩ := eq_append_of_splitAt? hb
        simp only [Except.ok.injEq, Prod.mk.injEq, Option.some.injEq] at hsplit
        exact ⟨u, b, v, hcut, by omega, hfour, hsplit.1, hsplit.2⟩
  · rintro ⟨u, b, v, hcut, hlen, hfour, rfl, rfl⟩
    have hu : splitAt? (byteLength x) (name ++ a.text) = some (u, b ++ v) := by
      rw [hcut, show byteLength x = byteLength u by omega]
      simp
    have hb : splitAt? 4 (b ++ v) = some (b, v) := by
      rw [← hfour]
      simp
    rw [hu]
    simp only [hb]

theorem cutsApart_of_splitAlias {name : List Char} (hname : ' ' ∉ name) (hne : name ≠ [])
    (htight : Tight name) (hgiven : Tight a.given.text) (h : a.Spaced)
    (hsplit : Imports.splitAlias (name ++ a.text) = .ok (name, some a.given.text)) :
    a.CutsApart name := by
  obtain ⟨p, q, hword⟩ := a.exists_word
  have hp : isBlank p = false := (a.word_spec p (by simp [hword])).2.1
  have hq : isBlank q = false := (a.word_spec q (by simp [hword])).2.1
  have hbytes : p.utf8Size + q.utf8Size = 2 := by simpa [hword] using a.byteLength_word
  have hbefore := a.before.byteLength_text
  have hafter := a.after.byteLength_text
  obtain ⟨u, b, v, hcut, hlen, hfour, hu, hv⟩ := (splitAlias_of_spaced hname h).mp hsplit
  obtain ⟨s, rfl, hs⟩ := exists_append_of_trim htight.1 hne hu hcut.symm
  obtain ⟨t, rfl, ht⟩ := exists_append_of_trim_end hgiven.2 a.given.ne_nil hv
    (r := (name ++ s) ++ b) (w := name ++ (a.before.text ++ (a.word ++ a.after.text)))
    (by rw [List.append_assoc, ← hcut]; simp [text])
  -- the blanks behind the name and those in front of the alias are those of the clause
  have hmiddle : s ++ (b ++ t) = a.before.text ++ p :: q :: a.after.text := by
    have hsame : name ++ (s ++ (b ++ t) ++ a.given.text) =
        name ++ (a.before.text ++ p :: q :: a.after.text ++ a.given.text) := by
      simpa [text, hword] using hcut.symm
    exact List.append_cancel_right (List.append_cancel_left hsame)
  obtain ⟨s', hs'⟩ := prefix_of_blanks hs hp hmiddle
  obtain ⟨t', ht'⟩ := suffix_of_blanks ht hq
    (show (s ++ b) ++ t = (a.before.text ++ [p]) ++ q :: a.after.text by simpa using hmiddle)
  have hlenMiddle := congrArg byteLength hmiddle
  have hlenBefore := congrArg byteLength hs'
  have hlenAfter := congrArg byteLength ht'
  simp only [byteLength_append, byteLength_cons] at hlen hlenMiddle hlenBefore hlenAfter
  refine ⟨?_, ?_, ?_, ?_⟩ <;> omega

theorem splitAlias_of_cutsApart {name : List Char} (hname : ' ' ∉ name) (htight : Tight name)
    (hgiven : Tight a.given.text) (h : a.Spaced) (hcuts : a.CutsApart name) :
    Imports.splitAlias (name ++ a.text) = .ok (name, some a.given.text) := by
  obtain ⟨hshort, hlong, hfirst, hlast⟩ := hcuts
  rw [splitAlias_of_spaced hname h]
  -- the clause is cut behind `i` blanks of the first gap, and then behind `j` blanks of the second
  obtain ⟨i, hi⟩ : ∃ i, byteLength name + i + 1 = byteLength (lower name) + a.before.text.length :=
    ⟨byteLength (lower name) + a.before.text.length - byteLength name - 1, by omega⟩
  obtain ⟨j, hj⟩ : ∃ j, i + 2 = a.before.text.length + j := ⟨i + 2 - a.before.text.length, by omega⟩
  have htake := a.before.byteLength_take i
  have hdrop := a.before.byteLength_drop i
  have htake' := a.after.byteLength_take j
  refine ⟨name ++ a.before.text.take i, a.before.text.drop i ++ (a.word ++ a.after.text.take j),
    a.after.text.drop j ++ a.given.text, ?_, ?_, ?_, ?_, ?_⟩
  · simp only [text, List.append_assoc]
    rw [← List.append_assoc (a.before.text.take i), List.take_append_drop,
      ← List.append_assoc (a.after.text.take j), List.take_append_drop]
  · rw [byteLength_append]
    omega
  · rw [byteLength_append, byteLength_append, a.byteLength_word]
    omega
  · exact (trim_blanks (u := []) (by simp) (fun c hc =>
      a.before.isBlank_of_mem c (List.mem_of_mem_take hc))
      name).trans (trim_of_ends htight.1 htight.2)
  · have hblank : ∀ c ∈ a.after.text.drop j, isBlank c = true :=
      fun c hc => a.after.isBlank_of_mem c (List.mem_of_mem_drop hc)
    have htrim := trim_blanks (v := []) hblank (by simp) a.given.text
    rw [List.append_nil] at htrim
    exact htrim.trans (trim_of_ends hgiven.1 hgiven.2)

/-- A clause whose name and alias have no blanks at their ends is cut into these two exactly if both
spaces are there and the offsets fit. -/
theorem splitAlias_iff {name : List Char} (hname : ' ' ∉ name) (hne : name ≠ [])
    (htight : Tight name) (hgiven : Tight a.given.text) :
    Imports.splitAlias (name ++ a.text) = .ok (name, some a.given.text) ↔ a.Spaced ∧
      a.CutsApart name := by
  constructor
  · intro hsplit
    by_cases h : a.Spaced
    · exact ⟨h, cutsApart_of_splitAlias hname hne htight hgiven h hsplit⟩
    · rw [splitAlias_of_not_spaced hname h] at hsplit
      simp at hsplit
  · rintro ⟨h, hcuts⟩
    exact splitAlias_of_cutsApart hname htight hgiven h hcuts

end Aliasing

theorem Aliasing.trim_text (a : Aliasing) {name : List Char} (hne : name ≠ []) (hname : Tight name)
    (hgiven : Tight a.given.text) : trim (name ++ a.text) = name ++ a.text := by
  apply trim_of_ends
  · rw [List.head?_append_of_ne_nil _ hne]
    exact hname.1
  · rw [text, ← List.append_assoc, ← List.append_assoc, ← List.append_assoc,
      List.getLast?_append_of_ne_nil _ a.given.ne_nil]
    exact hgiven.2

/-! ## What is read -/

/-- A clause is read as it is meant: no blank is taken off name or alias, the word between them is
found, and the cut does not touch them. -/
def UseClause.Exact (c : UseClause) : Prop :=
  Tight c.name.text ∧ ∀ a ∈ c.aliasing?, Tight a.given.text ∧ a.Spaced ∧ a.CutsApart c.name.text

theorem splitAlias_of_no_space {cs : List Char} (h : ' ' ∉ cs) :
    Imports.splitAlias cs = .ok (cs, none) := by
  have hlower : ' ' ∉ lower cs := fun hm => h (mem_of_mem_lowerAfter hm (by decide) (by decide))
  rw [Imports.splitAlias, show " as ".toList = asWord from rfl, breakOn?_asWord_eq_none hlower]

/-- Of what a clause is cut into, the first part is a part of the clause with nothing but blanks in
front, and it has no blanks at its ends. -/
theorem splitAlias_parts {cs nm : List Char} {other : Option (List Char)}
    (h : Imports.splitAlias (trim cs) = .ok (nm, other)) :
    Tight nm ∧ (∀ k ∈ other, Tight k) ∧ (other = none → nm = trim cs) ∧
      ∃ u r, cs = u ++ (nm ++ r) ∧ ∀ c ∈ u, isBlank c = true := by
  obtain ⟨u, v, hcs, hu, -⟩ := exists_blanks_trim cs
  rw [Imports.splitAlias] at h
  split at h
  · simp only [Except.ok.injEq, Prod.mk.injEq] at h
    obtain ⟨rfl, rfl⟩ := h
    exact ⟨ends_trim cs, by simp, fun _ => rfl, u, v, hcs, hu⟩
  · split at h
    · cases h
    · next x r hx =>
      split at h
      · cases h
      · next b y hy =>
        simp only [Except.ok.injEq, Prod.mk.injEq] at h
        obtain ⟨rfl, rfl⟩ := h
        obtain ⟨hcut, -⟩ := eq_append_of_splitAt? hx
        obtain ⟨u', v', hx', hu', -⟩ := exists_blanks_trim x
        refine ⟨ends_trim x, fun k hk => ?_, by simp, u ++ u', v' ++ (r ++ v), ?_, ?_⟩
        · obtain rfl : trim y = k := by simpa using hk
          exact ends_trim y
        · conv_lhs => rw [hcs, hcut, hx']
          simp
        · intro c hc
          exact (List.mem_append.mp hc).elim (hu c) (hu' c)

theorem front_eq_nil {u b cs r z : List Char} (hu : ∀ c ∈ u, isBlank c = true)
    (hz : ∀ d ∈ z.head?, d ∉ b ++ cs) (hne : cs ≠ []) (hlast : cs.getLast?.any isBlank = false)
    (h : cs ++ z = u ++ (b ++ cs) ++ r) :
    u = [] ∧ b = [] := by
  have hempty : ∀ w, cs = u ++ (b ++ cs) ++ w → u = [] ∧ b = [] := by
    intro w hw
    have hlen := congrArg List.length hw
    simp only [List.length_append] at hlen
    exact ⟨List.length_eq_zero_iff.mp (by omega), List.length_eq_zero_iff.mp (by omega)⟩
  rcases List.append_eq_append_iff.mp h.symm with ⟨w, hw, -⟩ | ⟨w, hw, hrest⟩
  · exact hempty w hw
  · cases w with
    | nil => exact hempty [] (by simpa using hw.symm)
    | cons d w =>
      have hd : d ∉ b ++ cs := hz d (by rw [hrest]; rfl)
      -- what follows the text is one of the blanks, and so is all of the text
      rcases List.append_eq_append_iff.mp hw with ⟨x, -, hx⟩ | ⟨x, hx, -⟩
      · exact absurd (by simp [hx]) hd
      · obtain ⟨cs, c, rfl⟩ := (List.eq_nil_or_concat' cs).resolve_left hne
        have hblank := hu c (by simp [hx])
        simp [hblank] at hlast

theorem WrittenName.eq_of_cut (n : WrittenName) {u b r z : List Char}
    (hu : ∀ c ∈ u, isBlank c = true) (hb : ∀ d ∈ b, d = '\\')
    (hz : ∀ d ∈ z.head?, isNameChar d = false) (hlast : n.plain.getLast?.any isBlank = false)
    (h : n.text ++ z = u ++ (b ++ n.plain) ++ r) :
    u = [] ∧ b ++ n.plain = n.text := by
  have hz' : ∀ b' : List Char, b' ⊆ b → ∀ d ∈ z.head?, d ∉ b' ++ n.plain := by
    intro b' hsub d hd hmem
    have hchar : isNameChar d = true := by
      rcases List.mem_append.mp hmem with hmem | hmem
      · rw [hb d (hsub hmem)]
        decide
      · exact n.isNameChar_of_mem d (n.plain_suffix.subset hmem)
    rw [hz d hd] at hchar
    cases hchar
  by_cases hrooted : n.rooted = true
  · -- behind the backslash of the name the same holds of the rest
    have htext : n.text = '\\' :: n.plain := if_pos hrooted
    rw [htext] at h ⊢
    have hfront : u ++ (b ++ n.plain ++ r) = [] ++ '\\' :: (n.plain ++ z) := by
      rw [← List.append_assoc, ← h]
      rfl
    have hnil : u <+: [] := prefix_of_blanks hu (by decide) hfront
    obtain rfl := List.prefix_nil.mp hnil
    cases b with
    | nil =>
      have hhead := n.head?_plain
      obtain ⟨c, cs, hplain⟩ := List.exists_cons_of_ne_nil n.plain_ne_nil
      rw [hplain, List.nil_append, List.nil_append] at h
      obtain ⟨rfl, -⟩ := List.cons.inj h
      simp [hplain] at hhead
    | cons d b =>
      obtain ⟨rfl, hrest⟩ := List.cons.inj h
      obtain ⟨-, rfl⟩ :=
        front_eq_nil (u := []) (by simp) (hz' b (List.subset_cons_self _ _)) n.plain_ne_nil hlast
        hrest
      exact ⟨rfl, rfl⟩
  · have htext : n.text = n.plain := if_neg hrooted
    rw [htext] at h ⊢
    obtain ⟨rfl, rfl⟩ := front_eq_nil hu (hz' b (List.Subset.refl _)) n.plain_ne_nil hlast h
    exact ⟨rfl, rfl⟩

namespace UseClause

variable {c : UseClause}

theorem head?_aliasing (c : UseClause) :
    ∀ d ∈ ((c.aliasing?.map Aliasing.text).getD []).head?, isNameChar d = false := by
  cases c.aliasing? with
  | none => simp
  | some a =>
    obtain ⟨e, rest, hbefore⟩ := List.exists_cons_of_ne_nil a.before_ne_nil
    have he := isSpace_spec (a.before.blank e (by simp [hbefore]))
    simp [Aliasing.text, hbefore, he]

theorem text_ne_nil (c : UseClause) : c.text ≠ [] :=
  List.append_ne_nil_of_left_ne_nil c.name.text_ne_nil _

/-- A clause that is read as it is meant is exact. -/
theorem exact_of_splitAlias {nm : List Char} {other : Option (List Char)}
    (h : Imports.splitAlias (trim c.text) = .ok (nm, other))
    (hname : ClassName.dropLeadingBackslashes nm = c.name.plain)
    (hkey : other.getD (Imports.lastSegment c.name.plain) = c.key) : c.Exact := by
  obtain ⟨hnm, hother, hnone, u, r, hcut, hu⟩ := splitAlias_parts h
  obtain ⟨b, rfl, hb⟩ : ∃ b, nm = b ++ c.name.plain ∧ ∀ d ∈ b, d = '\\' := by
    refine ⟨nm.takeWhile (· == '\\'), ?_, fun d hd => by simpa using List.mem_takeWhile_imp hd⟩
    rw [← hname, ClassName.dropLeadingBackslashes, List.takeWhile_append_dropWhile]
  have hlast : c.name.plain.getLast?.any isBlank = false := by
    have hend := hnm.2
    rwa [List.getLast?_append_of_ne_nil _ c.name.plain_ne_nil] at hend
  have hcut' : c.text = u ++ (b ++ c.name.plain) ++ r := by rw [hcut, ← List.append_assoc]
  obtain ⟨rfl, htext⟩ := c.name.eq_of_cut hu hb c.head?_aliasing hlast hcut'
  rw [htext] at h hnm hnone hcut
  refine ⟨hnm, fun a ha => ?_⟩
  have ha : c.aliasing? = some a := ha
  have haliased : c.text = c.name.text ++ a.text := by simp [text, ha]
  obtain ⟨p, q, hword⟩ := a.exists_word
  have hp : isBlank p = false := (a.word_spec p (by simp [hword])).2.1
  cases other with
  | none =>
    -- nothing but blanks would stand behind the name
    obtain ⟨s, hs, hblank⟩ :=
      exists_append_of_trim (r := []) hnm.1 c.name.text_ne_nil (hnone rfl).symm
      (by rw [List.append_nil, haliased])
    obtain rfl : a.text = s := List.append_cancel_left (haliased.symm.trans hs)
    have hblank := hblank p (by simp [Aliasing.text, hword])
    rw [hp] at hblank
    cases hblank
  | some k =>
    obtain rfl : k = a.given.text := by simpa [key, ha] using hkey
    have hgiven := hother _ rfl
    rw [haliased, a.trim_text c.name.text_ne_nil hnm hgiven] at h
    have hiff := Aliasing.splitAlias_iff (a := a)
      (c.name.not_mem_text (by decide)) c.name.text_ne_nil hnm hgiven
    exact ⟨hgiven, hiff.mp h⟩

theorem Exact.trim_text (h : c.Exact) : trim c.text = c.text := by
  obtain ⟨hname, halias⟩ := h
  rw [text]
  cases ha : c.aliasing? with
  | none =>
    rw [Option.map_none, Option.getD_none, List.append_nil]
    exact trim_of_ends hname.1 hname.2
  | some a =>
    rw [Option.map_some, Option.getD_some]
    exact a.trim_text c.name.text_ne_nil hname (halias a ha).1

/-- An exact clause is read as it is meant. -/
theorem Exact.splitAlias_text (h : c.Exact) :
    Imports.splitAlias c.text = .ok (c.name.text, c.aliasing?.map (·.given.text)) := by
  obtain ⟨hname, halias⟩ := h
  rw [text]
  cases ha : c.aliasing? with
  | none =>
    rw [Option.map_none, Option.getD_none, List.append_nil,
      splitAlias_of_no_space (c.name.not_mem_text (by decide))]
    rfl
  | some a =>
    obtain ⟨hgiven, hcut⟩ := halias a ha
    rw [Option.map_some, Option.getD_some]
    exact (Aliasing.splitAlias_iff (c.name.not_mem_text (by decide)) c.name.text_ne_nil hname
      hgiven).mpr hcut

theorem Exact.addClause_text (h : c.Exact) (group : List Char) (imports : Imports) :
    Imports.addClause group imports c.text =
      .ok (imports.insert (String.ofList c.key) (String.ofList
        (if group = [] then c.name.plain
        else ClassName.dropLeadingBackslashes group ++ '\\' :: c.name.plain))) := by
  have hkey : (c.aliasing?.map (·.given.text)).getD (Imports.lastSegment c.name.plain) = c.key := by
    rw [c.name.lastSegment_plain, key]
  rw [Imports.addClause, h.splitAlias_text]
  simp only [bind, Except.bind, pure, Except.pure, c.name.dropLeadingBackslashes_text, hkey]

end UseClause

end SignatureInference.Php
