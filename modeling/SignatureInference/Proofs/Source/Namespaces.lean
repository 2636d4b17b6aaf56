import SignatureInference.Php.Declarations
import SignatureInference.Proofs.QualifiedNames
import SignatureInference.Proofs.Source.Spans
import SignatureInference.Proofs.Text.Search

/-! # Namespace blocks

In a source of namespace blocks the scanner sees the headers of the blocks that have a name, and
nothing of the others. What is declared in a block therefore gets the name of the last named block
up to it. The outline of a file goes by the block itself. The two agree in every named block, and in
a block without a name as long as no named one stands in front of it.
-/
namespace SignatureInference.Source

open Text

theorem isWordChar_of_mem_namespaceWord : ∀ c ∈ namespaceWord, isWordChar c = true := by decide

theorem namespaceHeader?_word (previous : Option Char) (cs : List Char) :
    namespaceHeader? previous (namespaceWord ++ cs) =
      if wordMayBegin previous then namespaceTail? cs else none := by
  have hdrop : dropHead? "namespace".toList (namespaceWord ++ cs) = some cs := dropHead?_append _ _
  rw [namespaceHeader?_eq, headed, hdrop, Option.bind_some]

/-- The keyword of a namespace stands in the text, as a word of its own in front of a blank. -/
def MentionsNamespace (t : List Char) : Prop :=
  ∃ u v, t = u ++ (namespaceWord ++ v) ∧ wordMayBegin u.getLast? = true ∧
    v.head?.any isBlank = true

theorem mentionsNamespace_iff {t : List Char} :
    ((List.range (t.length + 1)).any fun n => wordMayBegin (t.take n).getLast? &&
        (dropHead? namespaceWord (t.drop n)).any (·.head?.any isBlank)) = true ↔
        MentionsNamespace t := by
  rw [List.any_eq_true]
  constructor
  · rintro ⟨n, -, h⟩
    rw [Bool.and_eq_true] at h
    cases hdrop : dropHead? namespaceWord (t.drop n) with
    | none => simp [hdrop] at h
    | some v =>
      have hcut : t = t.take n ++ (namespaceWord ++ v) := by
        rw [← eq_append_of_dropHead? hdrop, List.take_append_drop]
      exact ⟨t.take n, v, hcut, h.1, by simpa [hdrop] using h.2⟩
  · rintro ⟨u, v, rfl, hbegin, hblank⟩
    refine ⟨u.length, by simp, ?_⟩
    rw [List.take_left, List.drop_left, dropHead?_append, hbegin]
    exact hblank

instance decidableMentionsNamespace (t : List Char) : Decidable (MentionsNamespace t) :=
  decidable_of_iff _ mentionsNamespace_iff

theorem mentionsNamespace_of_concat {t : List Char} {c : Char} (hc : isBlank c = false)
    (h : MentionsNamespace (t ++ [c])) : MentionsNamespace t := by
  obtain ⟨u, v, heq, hbegin, hblank⟩ := h
  rcases List.eq_nil_or_concat' v with rfl | ⟨v, d, rfl⟩
  · cases hblank
  · rw [← List.append_assoc, ← List.append_assoc] at heq
    obtain ⟨rfl, hd⟩ := List.append_inj' heq rfl
    obtain rfl : c = d := by simpa using hd
    cases v with
    | nil => simp [hc] at hblank
    | cons e v => exact ⟨u, e :: v, by simp, hbegin, by simpa using hblank⟩

theorem wordMayBegin_lastOf {previous : Option Char} {u : List Char}
    (hprevious : wordMayBegin previous = true) (hu : wordMayBegin u.getLast? = true) :
    wordMayBegin (lastOf previous u) = true := by
  unfold lastOf
  cases hlast : u.getLast? with
  | none => exact hprevious
  | some c => rwa [hlast] at hu

theorem silent_of_not_mentionsNamespace {previous : Option Char} {t z : List Char}
    (hquiet : ¬MentionsNamespace t) (hlast : wordMayBegin t.getLast? = true) :
    Silent namespaceHeader? previous t z := by
  intro u v huv hv
  by_contra hne
  obtain ⟨f, hf⟩ := Option.ne_none_iff_exists'.mp hne
  rw [namespaceHeader?_eq, headed] at hf
  split at hf
  · next hbegin =>
    obtain ⟨r, hr, hf⟩ := Option.bind_eq_some_iff.mp hf
    obtain ⟨r', hblanks, -⟩ := Option.bind_eq_some_iff.mp hf
    -- a text that ends inside the keyword ends with a letter
    have hinside : ¬v <+: namespaceWord := by
      intro hbegins
      obtain ⟨c, hc⟩ := Option.ne_none_iff_exists'.mp (mt List.getLast?_eq_none_iff.mp hv)
      have hword := isWordChar_of_mem_namespaceWord c (hbegins.subset (List.mem_of_getLast? hc))
      rw [huv, List.getLast?_append, hc] at hlast
      simp [wordMayBegin, hword] at hlast
    have hcut : v ++ z = namespaceWord ++ r := eq_append_of_dropHead? hr
    rcases List.append_eq_append_iff.mp hcut with ⟨w, hw, -⟩ | ⟨w, hw, rfl⟩
    · exact hinside ⟨w, hw.symm⟩
    · cases w with
      | nil => exact hinside ⟨[], by simpa using hw⟩
      | cons c w =>
        apply hquiet
        refine ⟨u, c :: w, by rw [huv, hw], ?_, ?_⟩
        · unfold lastOf at hbegin
          cases hu : u.getLast? with
          | none => rfl
          | some d => rwa [hu] at hbegin
        · by_contra hc
          rw [List.head?_cons, Option.any_some] at hc
          rw [List.cons_append, dropBlanks?, if_neg hc] at hblanks
          cases hblanks
  · cases hf

/-! ## Blocks -/

def isNamespacePart (c : Char) : Bool := isIdentPart c || c == '\\'

theorem isBlank_of_isNamespacePart {c : Char} (h : isNamespacePart c = true) :
    isBlank c = false := by
  rcases Bool.or_eq_true_iff.mp h with hpart | hpart
  · exact isBlank_of_isIdentPart hpart
  · rw [beq_iff_eq.mp hpart]
    decide

/-- A namespace block with braces, and what stands in front of it. -/
structure NamespaceBlock where
  lead : List Char
  before : List Char
  /-- Empty in a block without a name. -/
  name : List Char
  after : List Char
  body : List Char
  lead_quiet : ¬MentionsNamespace lead
  lead_last : wordMayBegin lead.getLast? = true
  before_blank : ∀ c ∈ before, isBlank c = true
  after_blank : ∀ c ∈ after, isBlank c = true
  before_ne_nil : name ≠ [] → before ≠ []
  name_start : name ≠ [] → name.head?.any isIdentStart = true
  name_part : ∀ c ∈ name, isNamespacePart c = true
  body_quiet : ¬MentionsNamespace body

namespace NamespaceBlock

def head (b : NamespaceBlock) : List Char := namespaceWord ++ (b.before ++ (b.name ++ b.after))

def statement (b : NamespaceBlock) : List Char := b.head ++ ('\x7b' :: (b.body ++ ['\x7d']))

def text (b : NamespaceBlock) : List Char := b.lead ++ b.statement

theorem not_blank_of_mem_name (b : NamespaceBlock) {c : Char} (hc : c ∈ b.name) :
    isBlank c = false :=
  isBlank_of_isNamespacePart (b.name_part c hc)

def headers (b : NamespaceBlock) (pos : Nat) : List Occurrence :=
  if b.name = [] then []
  else
    [⟨pos + byteLength b.lead, pos + byteLength b.lead + byteLength (b.head ++ ['\x7b']), b.name⟩]

theorem silent_head {b : NamespaceBlock} (hname : b.name = []) (previous : Option Char)
    (z : List Char) :
    Silent namespaceHeader? previous (b.head ++ ['\x7b']) z := by
  have hblank : ∀ c ∈ b.before ++ b.after, isBlank c = true := fun c hc =>
    (List.mem_append.mp hc).elim (b.before_blank c) (b.after_blank c)
  have hhead : b.head ++ ['\x7b'] = namespaceWord ++ ((b.before ++ b.after) ++ ['\x7b']) := by
    simp [head, hname]
  rw [hhead]
  apply silent_word .ofNamespace isWordChar_of_mem_namespaceWord
  · -- behind the blanks stands a brace
    have htail : namespaceTail? ((b.before ++ b.after) ++ '\x7b' :: z) = none := by
      unfold namespaceTail?
      cases hdrop : dropBlanks? ((b.before ++ b.after) ++ '\x7b' :: z) with
      | none => rfl
      | some r =>
        rw [exists_append_of_dropBlanks? hdrop, trimStart_blanks hblank,
          trimStart_cons_of_not_blank (by decide)]
        rfl
    rw [List.append_assoc, List.singleton_append, namespaceHeader?_word, htail, ite_self]
  · apply silent_of_not_begins .ofNamespace
    intro c hc
    rcases List.mem_append.mp hc with hc | hc
    · exact beginsKeyword_of_isBlank (hblank c hc)
    · rw [List.mem_singleton.mp hc]
      decide

theorem namespaceTail?_of_dropBlanks? {cs v name rest : List Char} (hdrop : dropBlanks? cs = some v)
    (hstart : v.head?.any isIdentStart = true)
    (htake : (v.takeWhile fun c => isIdentPart c || c == '\\') = name)
    (hrest : trimStart (v.dropWhile fun c => isIdentPart c || c == '\\') = '\x7b' :: rest) :
    namespaceTail? cs = some ⟨name, rest⟩ := by
  cases v with
  | nil => cases hstart
  | cons c v =>
    have hc : isIdentStart c = true := hstart
    simp only [namespaceTail?, hdrop, Option.bind_eq_bind, Option.bind_some, hc, hrest, htake]
    rfl

theorem namespaceHeader?_head {b : NamespaceBlock} (hname : b.name ≠ []) {previous : Option Char}
    (hprevious : wordMayBegin previous = true) (z : List Char) :
    namespaceHeader? previous ((b.head ++ ['\x7b']) ++ z) = some ⟨b.name, z⟩ := by
  have hstart := b.name_start hname
  have hbehind : (b.after ++ '\x7b' :: z).head?.any isNamespacePart = false := by
    cases hafter : b.after with
    | nil => rfl
    | cons e after =>
      by_contra hpart
      have hblank := isBlank_of_isNamespacePart (c := e) (by simpa using hpart)
      rw [b.after_blank e (by simp [hafter])] at hblank
      cases hblank
  have hdrop : dropBlanks? (b.before ++ (b.name ++ (b.after ++ '\x7b' :: z))) =
      some (b.name ++ (b.after ++ '\x7b' :: z)) := by
    obtain ⟨d, before, hbefore⟩ := List.exists_cons_of_ne_nil (b.before_ne_nil hname)
    obtain ⟨c, name, hcons⟩ := List.exists_cons_of_ne_nil hname
    have hd : isBlank d = true := b.before_blank d (by simp [hbefore])
    have htrim := trimStart_blanks b.before_blank (b.name ++ (b.after ++ '\x7b' :: z))
    rw [hcons, List.cons_append,
      trimStart_cons_of_not_blank (b.not_blank_of_mem_name (by simp [hcons]))] at htrim
    rw [hcons, List.cons_append]
    rw [hbefore, List.cons_append] at htrim ⊢
    rw [dropBlanks?, if_pos hd, htrim]
  have htake : (b.name ++ (b.after ++ '\x7b' :: z)).takeWhile isNamespacePart = b.name := by
    rw [List.takeWhile_append_of_pos b.name_part]
    cases hcs : b.after ++ '\x7b' :: z with
    | nil => simp
    | cons d cs =>
      rw [hcs] at hbehind
      simpa using hbehind
  have hrest : (b.name ++ (b.after ++ '\x7b' :: z)).dropWhile isNamespacePart =
      b.after ++ '\x7b' :: z := by
    rw [List.dropWhile_append_of_pos b.name_part]
    cases hcs : b.after ++ '\x7b' :: z with
    | nil => rfl
    | cons d cs =>
      rw [hcs] at hbehind
      exact List.dropWhile_cons_of_neg (by simpa using hbehind)
  have hhead : (b.name ++ (b.after ++ '\x7b' :: z)).head?.any isIdentStart = true := by
    obtain ⟨c, name, hcons⟩ := List.exists_cons_of_ne_nil hname
    rw [hcons] at hstart ⊢
    exact hstart
  have htail : namespaceTail? (b.before ++ (b.name ++ (b.after ++ '\x7b' :: z))) =
      some ⟨b.name, z⟩ := by
    apply namespaceTail?_of_dropBlanks? hdrop hhead htake
    have htrim : trimStart (b.after ++ '\x7b' :: z) = '\x7b' :: z := by
      rw [trimStart_blanks b.after_blank, trimStart_cons_of_not_blank (by decide)]
    exact (congrArg trimStart hrest).trans htrim
  have htext : (b.head ++ ['\x7b']) ++ z =
      namespaceWord ++ (b.before ++ (b.name ++ (b.after ++ '\x7b' :: z))) := by simp [head]
  rw [htext, namespaceHeader?_word, if_pos hprevious, htail]

/-- The headers of a block are found, and the search goes on behind its brace. -/
theorem occurrencesFrom_text (b : NamespaceBlock) {previous : Option Char}
    (hprevious : wordMayBegin previous = true) (pos : Nat) (z : List Char) :
    occurrencesFrom namespaceHeader? previous pos 0 (b.text ++ z) =
      b.headers pos ++ occurrencesFrom namespaceHeader? (some '\x7d')
        (pos + byteLength b.text) 0 z := by
  have hlead : Silent namespaceHeader? previous b.lead
      ((b.head ++ ['\x7b']) ++ ((b.body ++ ['\x7d']) ++ z)) :=
    silent_of_not_mentionsNamespace b.lead_quiet b.lead_last
  have hbody : ∀ previous, Silent namespaceHeader? previous (b.body ++ ['\x7d']) z := by
    intro previous
    apply silent_of_not_mentionsNamespace
    · exact fun h => b.body_quiet (mentionsNamespace_of_concat (by decide) h)
    · rw [List.getLast?_concat]
      decide
  have htext : b.text ++ z = b.lead ++ ((b.head ++ ['\x7b']) ++ ((b.body ++ ['\x7d']) ++ z)) := by
    simp only [text, statement, List.append_assoc, List.cons_append, List.nil_append]
  have hlast : ∀ previous : Option Char, lastOf previous (b.body ++ ['\x7d']) = some '\x7d' := by
    intro previous
    rw [lastOf, List.getLast?_concat]
    rfl
  have hlength :
      pos + byteLength b.lead + byteLength (b.head ++ ['\x7b']) +
        byteLength (b.body ++ ['\x7d']) = pos + byteLength b.text := by
    have := congrArg byteLength htext
    simp only [byteLength_append] at this ⊢
    omega
  rw [htext, occurrencesFrom_silent _ hlead, headers]
  split
  · next hname =>
    rw [occurrencesFrom_silent _ (silent_head hname _ _), occurrencesFrom_silent _ (hbody _), hlast,
      List.nil_append, hlength]
  · next hname =>
    rw [occurrencesFrom_match _ (by simp)
        (namespaceHeader?_head hname (wordMayBegin_lastOf hprevious b.lead_last) _),
      occurrencesFrom_silent _ (hbody _), hlast, List.singleton_append, hlength]

end NamespaceBlock

open NamespaceBlock

def blocksText (blocks : List NamespaceBlock) : List Char := blocks.flatMap NamespaceBlock.text

def blockHeaders (pos : Nat) : List NamespaceBlock → List Occurrence
  | [] => []
  | b :: bs => b.headers pos ++ blockHeaders (pos + byteLength b.text) bs

def lastNamed (current : List Char) (blocks : List NamespaceBlock) : List Char :=
  blocks.foldl (fun current b => if b.name = [] then current else b.name) current

theorem occurrencesFrom_blocksText (blocks : List NamespaceBlock) {previous : Option Char}
    (hprevious : wordMayBegin previous = true) (pos : Nat) (z : List Char) :
    ∃ previous', occurrencesFrom namespaceHeader? previous pos 0 (blocksText blocks ++ z) =
      blockHeaders pos blocks ++
        occurrencesFrom namespaceHeader? previous' (pos + byteLength (blocksText blocks)) 0 z := by
  induction blocks generalizing previous pos with
  | nil => exact ⟨previous, rfl⟩
  | cons b bs ih =>
    have hclose : wordMayBegin (some '\x7d') = true := by decide
    obtain ⟨previous', hbs⟩ := ih hclose (pos + byteLength b.text)
    refine ⟨previous', ?_⟩
    have htext : blocksText (b :: bs) ++ z = b.text ++ (blocksText bs ++ z) := by simp [blocksText]
    have hlength : byteLength (blocksText (b :: bs)) =
        byteLength b.text + byteLength (blocksText bs) := by
      simp [blocksText]
    rw [htext, occurrencesFrom_text b hprevious, hbs, blockHeaders, hlength, List.append_assoc,
      Nat.add_assoc]

theorem blockHeaders_append (pos : Nat) (as bs : List NamespaceBlock) :
    blockHeaders pos (as ++ bs) = blockHeaders pos as ++
      blockHeaders (pos + byteLength (blocksText as)) bs := by
  induction as generalizing pos with
  | nil => rfl
  | cons a as ih => simp [blockHeaders, blocksText, ih, Nat.add_assoc]

theorem start_lt_of_mem_blockHeaders {pos : Nat} {blocks : List NamespaceBlock} {o : Occurrence}
    (ho : o ∈ blockHeaders pos blocks) : o.start < pos + byteLength (blocksText blocks) := by
  induction blocks generalizing pos with
  | nil => cases ho
  | cons b bs ih =>
    have hlength : byteLength (blocksText (b :: bs)) =
        byteLength b.text + byteLength (blocksText bs) := by
      simp [blocksText]
    rcases List.mem_append.mp ho with ho | ho
    · have hstatement : 0 < byteLength b.statement := byteLength_pos (by simp [statement])
      have htext : byteLength b.text = byteLength b.lead + byteLength b.statement :=
        byteLength_append _ _
      unfold NamespaceBlock.headers at ho
      split at ho
      · cases ho
      · rw [List.mem_singleton.mp ho]
        simp only
        omega
    · have := ih ho
      omega

theorem lastNamed_eq (current : List Char) (pos : Nat) (blocks : List NamespaceBlock) :
    ((blockHeaders pos blocks).getLast?.map (·.name)).getD current = lastNamed current blocks := by
  induction blocks generalizing current pos with
  | nil => rfl
  | cons b bs ih =>
    rw [lastNamed, List.foldl_cons, ← lastNamed, ← ih _ (pos + byteLength b.text), blockHeaders,
      List.getLast?_append, NamespaceBlock.headers]
    cases (blockHeaders (pos + byteLength b.text) bs).getLast? with
    | some o => rfl
    | none =>
      split
      · rfl
      · rfl

theorem namespaceAt_eq (namespaces : List Occurrence) (offset : Nat) :
    namespaceAt namespaces offset =
      String.ofList
        (((namespaces.takeWhile fun o => o.start < offset).getLast?.map (·.name)).getD []) := by
  unfold namespaceAt
  cases (namespaces.takeWhile fun o => o.start < offset).getLast? <;> rfl

section

variable (blocks : List NamespaceBlock) (b : NamespaceBlock) (rest : List Char)

def bodyStart : Nat := byteLength (blocksText blocks) + byteLength (b.lead ++ b.head) + 1

def bodyStop : Nat := bodyStart blocks b + byteLength b.body

theorem bodyStop_lt : bodyStop blocks b < byteLength (blocksText (blocks ++ [b])) := by
  have hopen : '\x7b'.utf8Size = 1 := by decide
  have hclose : '\x7d'.utf8Size = 1 := by decide
  simp [bodyStop, bodyStart, blocksText, text, statement, hopen, hclose]
  omega

/-- In the body of a block the namespace of the last named block is in effect. -/
theorem namespaceAt_in_body {offset : Nat} (hstart : bodyStart blocks b ≤ offset)
    (hstop : offset ≤ bodyStop blocks b) :
    namespaceAt (occurrences namespaceHeader? (blocksText (blocks ++ [b]) ++ rest)) offset =
      String.ofList (lastNamed [] (blocks ++ [b])) := by
  have hbegin : wordMayBegin none = true := rfl
  obtain ⟨previous, hoccurrences⟩ := occurrencesFrom_blocksText (blocks ++ [b]) hbegin 0 rest
  have hfront : ∀ o ∈ blockHeaders 0 (blocks ++ [b]), decide (o.start < offset) = true := by
    intro o ho
    rw [decide_eq_true_eq]
    rw [blockHeaders_append] at ho
    rcases List.mem_append.mp ho with ho | ho
    · have := start_lt_of_mem_blockHeaders ho
      unfold bodyStart at hstart
      omega
    · have hheaders : o ∈ b.headers (0 + byteLength (blocksText blocks)) := by
        simpa [blockHeaders] using ho
      unfold NamespaceBlock.headers at hheaders
      split at hheaders
      · cases hheaders
      · rw [List.mem_singleton.mp hheaders]
        unfold bodyStart at hstart
        rw [byteLength_append] at hstart
        simp only
        omega
  have hbehind : (occurrencesFrom namespaceHeader? previous
      (0 + byteLength (blocksText (blocks ++ [b]))) 0 rest).takeWhile (fun o => o.start < offset) =
        [] := by
    cases hlater : occurrencesFrom namespaceHeader? previous
        (0 + byteLength (blocksText (blocks ++ [b]))) 0 rest with
    | nil => rfl
    | cons o later =>
      have hbounds := IsHeader.ofNamespace.bounds (hlater ▸ List.mem_cons_self)
      have hlt := bodyStop_lt blocks b
      exact List.takeWhile_cons_of_neg (by simp only [decide_eq_true_eq]; omega)
  rw [namespaceAt_eq, occurrences, hoccurrences, List.takeWhile_append_of_pos hfront, hbehind,
    List.append_nil, lastNamed_eq]

/-! ## Declarations in a block -/

theorem brace_not_mem_of_classHeader? {previous : Option Char} {w : List Char} {f : Found}
    (h : classHeader? previous (w ++ f.rest) = some f) : '\x7b' ∉ w := by
  rw [classHeader?_eq, headed] at h
  split at h
  · obtain ⟨r, hr, hf⟩ := Option.bind_eq_some_iff.mp h
    obtain ⟨word, hword, hr⟩ := List.exists_of_findSome?_eq_some hr
    obtain ⟨v, hv, hfold⟩ := exists_append_of_dropWord? hr
    obtain ⟨r', hr', hf⟩ := Option.bind_eq_some_iff.mp hf
    obtain ⟨⟨name, rest⟩, hname, hf⟩ := Option.bind_eq_some_iff.mp hf
    cases hf
    obtain ⟨hcut, -, hpart, -⟩ := takeName?_eq_some_iff.mp hname
    obtain ⟨blanks, hblanks, hblank⟩ := exists_append_trimStart r
    rw [← exists_append_of_dropBlanks? hr', hcut] at hblanks
    have hw : w = v ++ (blanks ++ name) := by
      have hall : w ++ rest = v ++ (blanks ++ name) ++ rest := by
        rw [hv, hblanks]
        simp
      exact List.append_cancel_right hall
    intro hbrace
    rw [hw] at hbrace
    rcases List.mem_append.mp hbrace with hbrace | hbrace
    · have hletters : ∀ k ∈ classWords, '\x7b' ∉ k := by decide
      have hfolded : foldLetter '\x7b' ∈ v.map foldLetter := List.mem_map_of_mem hbrace
      rw [hfold] at hfolded
      exact hletters word hword hfolded
    · rcases List.mem_append.mp hbrace with hbrace | hbrace
      · exact absurd (hblank _ hbrace) (by decide)
      · exact absurd (hpart _ hbrace) (by decide)
  · cases h

theorem start_of_mem_classSpans {masked : List Char} {c : ClassSpan}
    (hc : c ∈ classSpans masked) {k : Nat} (hbrace : HasAt masked k '\x7b')
    (hk : k + 1 < c.bodyStart) :
    ∃ offset, k < offset ∧ offset < c.bodyStart ∧
      c.namespaceName = namespaceAt (occurrences namespaceHeader? masked) offset := by
  obtain ⟨o, ho, hspan⟩ := List.mem_filterMap.mp hc
  obtain ⟨u, v, f, rfl, hstart, hf, hstop, -⟩ := IsHeader.ofClass.start_mem ho
  obtain ⟨⟨w, rfl⟩, -⟩ := IsHeader.ofClass.suffix hf
  have hstop : o.stop = byteLength (u ++ w) := by
    simp only [byteLength_append] at hstop ⊢
    omega
  rw [classSpan?_eq] at hspan
  split at hspan
  · cases hspan
  · obtain ⟨body, hbody, rfl⟩ := Option.map_eq_some_iff.mp hspan
    unfold classBody? at hbody
    rw [hstop, ← List.append_assoc, dropBytes_byteLength] at hbody
    obtain ⟨⟨n, d⟩, hfind, hbody⟩ := Option.bind_eq_some_iff.mp hbody
    split at hbody
    · cases hbody
    · obtain ⟨close, -, rfl⟩ := Option.map_eq_some_iff.mp hbody
      simp only at hk hbody ⊢
      have hle := le_findFrom hfind
      rw [byteLength_append] at hle hstop
      refine ⟨o.start, ?_, by omega, rfl⟩
      by_contra hlt
      -- the brace would stand in the head of the class, or in front of the brace of the class
      by_cases hinside : k < o.stop
      · have hright := (hbrace.right (by omega)).left (by omega)
        exact brace_not_mem_of_classHeader? hf hright.mem
      · rw [← List.append_assoc] at hbrace
        have hright := hbrace.right (by rw [byteLength_append]; omega)
        have hends := not_of_lt_findFrom hfind hright (by simp only [byteLength_append]; omega)
        exact absurd hends (by decide)

theorem namespaceName?_statement :
    (Php.namespaceName? (String.ofList b.statement)).getD "" = String.ofList b.name := by
  have hplain : ∀ c, isBlank c = true ∨ isNamespacePart c = true →
      (c != '\x7b' && c != ';') = true := by
    intro c hc
    have hbrace : c ≠ '\x7b' := by
      rintro rfl
      exact absurd hc (by decide)
    have hsemicolon : c ≠ ';' := by
      rintro rfl
      exact absurd hc (by decide)
    simp [hbrace, hsemicolon]
  have hhead : ∀ c ∈ b.before ++ (b.name ++ b.after), (c != '\x7b' && c != ';') = true := by
    intro c hc
    apply hplain
    rcases List.mem_append.mp hc with hc | hc
    · exact .inl (b.before_blank c hc)
    · rcases List.mem_append.mp hc with hc | hc
      · exact .inr (b.name_part c hc)
      · exact .inl (b.after_blank c hc)
  have hbreak : breakOn? "namespace".toList (String.ofList b.statement).toList =
      some ([], (b.before ++ (b.name ++ b.after)) ++ '\x7b' :: (b.body ++ ['\x7d'])) := by
    have htext : (String.ofList b.statement).toList =
        namespaceWord ++ ((b.before ++ (b.name ++ b.after)) ++ '\x7b' :: (b.body ++ ['\x7d'])) := by
      rw [String.toList_ofList, statement, head, List.append_assoc]
    rw [htext]
    exact breakOn?_append_self (show namespaceWord ≠ [] by decide) _
  have htake : ((b.before ++ (b.name ++ b.after)) ++ '\x7b' :: (b.body ++ ['\x7d'])).takeWhile
      (fun c => c != '\x7b' && c != ';') = b.before ++ (b.name ++ b.after) := by
    rw [takeWhile_stop (by decide), List.takeWhile_eq_self_iff]
    exact hhead
  have htrim := (trim_blanks b.before_blank b.after_blank b.name).trans
    (trim_of_no_blank fun c hc => b.not_blank_of_mem_name hc)
  simp only [Php.namespaceName?, hbreak, htake, htrim, Option.bind_eq_bind, Option.bind_some]
  split
  · next hname => rw [hname]; rfl
  · rfl

theorem lastNamed_eq_nil_iff (current : List Char) :
    lastNamed current blocks = [] ↔ current = [] ∧ ∀ a ∈ blocks, a.name = [] := by
  induction blocks generalizing current with
  | nil => simp [lastNamed]
  | cons a as ih =>
    rw [lastNamed, List.foldl_cons, ← lastNamed, ih]
    by_cases ha : a.name = []
    · simp [ha]
    · simp [ha]

/-- The scanner gives what is declared in a block the name of the last named block up to it. This is
the name that the block has itself exactly if it has one or no block in front of it has. -/
theorem namespace_of_block :
    (∀ c ∈ classSpans (blocksText (blocks ++ [b]) ++ rest),
      bodyStart blocks b < c.bodyStart → c.bodyStart ≤ bodyStop blocks b →
        c.namespaceName = String.ofList (lastNamed [] (blocks ++ [b]))) ∧
    (∀ classes free, freeFunctions (blocksText (blocks ++ [b]) ++ rest) classes = .ok free →
      ∀ f ∈ free, bodyStart blocks b ≤ f.2.paramsOpen → f.2.paramsOpen < bodyStop blocks b →
        f.1 = String.ofList (lastNamed [] (blocks ++ [b]))) ∧
    (String.ofList (lastNamed [] (blocks ++ [b])) =
        (Php.namespaceName? (String.ofList b.statement)).getD "" ↔
      b.name ≠ [] ∨ ∀ a ∈ blocks, a.name = []) := by
  refine ⟨?_, ?_, ?_⟩
  · intro c hc hstart hstop
    -- the brace of the block
    have hbrace : HasAt (blocksText (blocks ++ [b]) ++ rest) (bodyStart blocks b - 1) '\x7b' := by
      refine ⟨blocksText blocks ++ (b.lead ++ b.head), b.body ++ ('\x7d' :: rest), ?_, ?_⟩
      · simp [blocksText, text, statement]
      · rw [byteLength_append, bodyStart, Nat.add_sub_cancel]
    have hpos : 0 < bodyStart blocks b := Nat.succ_pos _
    obtain ⟨offset, hlt, hle, hname⟩ := start_of_mem_classSpans hc hbrace (by omega)
    rw [hname]
    exact namespaceAt_in_body blocks b rest (by omega) (by omega)
  · intro classes free hfree f hf hstart hstop
    unfold freeFunctions at hfree
    cases hspans : functionSpans (blocksText (blocks ++ [b]) ++ rest) 0
        (byteLength (blocksText (blocks ++ [b]) ++ rest)) with
    | error e =>
      rw [hspans] at hfree
      cases hfree
    | ok spans =>
      rw [hspans] at hfree
      cases hfree
      obtain ⟨span, -, rfl⟩ := List.mem_map.mp hf
      exact namespaceAt_in_body blocks b rest hstart hstop.le
  · have hlast : lastNamed [] (blocks ++ [b]) =
        if b.name = [] then lastNamed [] blocks else b.name := by
      simp [lastNamed]
    rw [namespaceName?_statement, String.ofList_inj, hlast]
    by_cases hname : b.name = []
    · rw [if_pos hname, hname, lastNamed_eq_nil_iff]
      simp
    · simp [hname]

end

theorem namespace_of_block_unnamed :
    ∃ a b : NamespaceBlock, blocksText ([a] ++ [b]) =
        "namespace A\x7bclass B\x7b\x7d\x7dnamespace\x7bclass C\x7b\x7d\x7d".toList ∧
      ∃ c ∈ classSpans (blocksText ([a] ++ [b]) ++ []), c.name = "C" ∧
      bodyStart [a] b < c.bodyStart ∧
        c.bodyStart ≤ bodyStop [a] b ∧ c.namespaceName =
          String.ofList (lastNamed [] ([a] ++ [b])) := by
  let a : NamespaceBlock :=
    ⟨[], [' '], ['A'], [], "class B\x7b\x7d".toList,
      by decide, by decide, by decide, by decide, by decide, by decide, by decide, by decide⟩
  let b : NamespaceBlock :=
    ⟨[], [], [], [], "class C\x7b\x7d".toList,
      by decide, by decide, by decide, by decide, by decide, by decide, by decide, by decide⟩
  have hmem : (⟨"A", "C", 40, 40⟩ : ClassSpan) ∈ classSpans (blocksText ([a] ++ [b]) ++ []) := by
    decide +kernel
  exact ⟨a, b, by decide, _, hmem, rfl, by decide, by decide,
    (namespace_of_block [a] b []).1 _ hmem (by decide) (by decide)⟩

/-- What is declared in a block without a name gets the name of the block before it. -/
theorem namespace_of_block_before :
    (classSpans
      "namespace A \x7b class B \x7b\x7d \x7d namespace \x7b class C \x7b\x7d \x7d".toList).map
        (fun c => (c.name, c.namespaceName)) = [("B", "A"), ("C", "A")] ∧
      freeFunctions "namespace A \x7b \x7d namespace \x7b function f() \x7b\x7d \x7d".toList [] =
        .ok [("A", ⟨"f", 38⟩)] ∧
      Php.namespaceName? "namespace \x7b class C \x7b\x7d \x7d" = none := by
  decide +kernel

end SignatureInference.Source
