import SignatureInference.Proofs.Text.Search
import SignatureInference.Trace.Doubles

/-! # Printed strings

A string is printed in a trace with its backslashes doubled and with letters for line feeds and
tabs. It is read back by replacing one escape after the other in the whole text. Since double
backslashes are replaced first, a backslash that is left begins an escape, and the result is that of
reading the text from left to right.
-/
namespace SignatureInference.Trace.Doubles

open Text

def escapeChar (c : Char) : List Char :=
  if c = '\\' then ['\\', '\\']
  else if c = '\n' then ['\\', 'n']
  else if c = '\t' then ['\\', 't']
  else [c]

def escape (cs : List Char) : List Char := cs.flatMap escapeChar

/-- A character, or a space in place of a line feed or a tab. -/
def spaced (c : Char) : Char := if c = '\n' ∨ c = '\t' then ' ' else c

/-! ## Reading from left to right -/

theorem unescape_backslashes (cs : List Char) :
    unescape ('\\' :: '\\' :: cs) = '\\' :: unescape cs := by
  have haside : replaceAll ['\\', '\\'] ['\x00'] ('\\' :: '\\' :: cs) =
      '\x00' :: replaceAll ['\\', '\\'] ['\x00'] cs :=
        replaceAll_append_self (List.cons_ne_nil _ _) cs
  have hback : ∀ ds, replaceAll ['\x00'] ['\\'] ('\x00' :: ds) =
      '\\' :: replaceAll ['\x00'] ['\\'] ds :=
    replaceAll_append_self (List.cons_ne_nil _ _)
  simp only [unescape]
  rw [haside, replaceAll_cons_of_ne (by decide), replaceAll_cons_of_ne (by decide), hback]

theorem unescape_letter {c : Char} (hc : c = 'n' ∨ c = 't') (cs : List Char) :
    unescape ('\\' :: c :: cs) = ' ' :: unescape cs := by
  have hstay : ∀ {d : Char} {new} ds, c ≠ d →
      replaceAll ['\\', d] new ('\\' :: c :: ds) = '\\' :: c :: replaceAll ['\\', d] new ds := by
    intro d new ds hd
    have hbegins : ¬['\\', d] <+: '\\' :: c :: ds := by simp [hd.symm]
    rw [replaceAll_cons_of_no_match hbegins,
      replaceAll_cons_of_ne (by rcases hc with rfl | rfl <;> decide)]
  have hfound : ∀ ds, replaceAll ['\\', c] [' '] ('\\' :: c :: ds) =
      ' ' :: replaceAll ['\\', c] [' '] ds :=
    replaceAll_append_self (List.cons_ne_nil _ _)
  simp only [unescape]
  rw [hstay cs (by rcases hc with rfl | rfl <;> decide)]
  rcases hc with rfl | rfl
  · rw [hfound, replaceAll_cons_of_ne (by decide), replaceAll_cons_of_ne (by decide)]
  · rw [hstay _ (by decide), hfound, replaceAll_cons_of_ne (by decide)]

theorem unescape_cons {c : Char} (hslash : c ≠ '\\') (hzero : c ≠ '\x00') (cs : List Char) :
    unescape (c :: cs) = c :: unescape cs := by
  simp only [unescape]
  rw [replaceAll_cons_of_ne hslash.symm, replaceAll_cons_of_ne hslash.symm,
    replaceAll_cons_of_ne hslash.symm, replaceAll_cons_of_ne hzero.symm]

/-! ## Reading back -/

theorem unescape_escapeChar {c : Char} (hzero : c ≠ '\x00') (cs : List Char) :
    unescape (escapeChar c ++ cs) = spaced c :: unescape cs := by
  by_cases hslash : c = '\\'
  · subst hslash
    exact unescape_backslashes cs
  by_cases hfeed : c = '\n'
  · subst hfeed
    exact unescape_letter (.inl rfl) cs
  by_cases htab : c = '\t'
  · subst htab
    exact unescape_letter (.inr rfl) cs
  have hself : escapeChar c = [c] := by simp [escapeChar, hslash, hfeed, htab]
  have hplain : spaced c = c := by simp [spaced, hfeed, htab]
  rw [hself, hplain, List.singleton_append, unescape_cons hslash hzero]

/-- A printed text is read back, with spaces for line feeds and tabs. -/
theorem unescape_escape {cs : List Char} (h : ∀ c ∈ cs, c.toNat ≠ 0) :
    unescape (escape cs) = cs.map spaced := by
  induction cs with
  | nil => rfl
  | cons c cs ih =>
    rw [List.forall_mem_cons] at h
    have hzero : c ≠ '\x00' := by
      rintro rfl
      exact h.1 rfl
    rw [escape, List.flatMap_cons, unescape_escapeChar hzero, List.map_cons, ← ih h.2, escape]

/-- The source of a class that is printed in a trace is read back, with spaces for line feeds and
tabs. In particular any number of backslashes with an `n` or a `t` behind them stays what it is. -/
theorem printed_source_recovered {source : List Char} (hzero : '\x00' ∉ source) :
    unescape (escape source) = source.map spaced ∧
      ∀ before count letter after, letter = 'n' ∨ letter = 't' →
        source = before ++ (List.replicate count '\\' ++ letter :: after) →
        unescape (escape source) =
          before.map spaced ++ (List.replicate count '\\' ++ letter :: after.map spaced) := by
  have hread : unescape (escape source) = source.map spaced := by
    apply unescape_escape
    intro c hc hcode
    have hc' : c = '\x00' := Char.ext (UInt32.toNat_inj.mp hcode)
    exact hzero (hc' ▸ hc)
  refine ⟨hread, ?_⟩
  intro before count letter after hletter hsource
  have hself : spaced letter = letter := by rcases hletter with rfl | rfl <;> rfl
  have hslash : spaced '\\' = '\\' := rfl
  rw [hread, hsource, List.map_append, List.map_append, List.map_replicate, List.map_cons,
    hself, hslash]

theorem printed_source_recovered_namespace :
    '\x00' ∉ "use \\test\\new\n\t".toList ∧
      unescape "use \\\\test\\\\new\\n\\t".toList = "use \\test\\new  ".toList := by
  have hzero : '\x00' ∉ "use \\test\\new\n\t".toList := by decide
  exact ⟨hzero, (printed_source_recovered hzero).1⟩

end SignatureInference.Trace.Doubles
