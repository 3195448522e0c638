import TorrentAtlas.CommandLine

/-!
# Quoting on the command line (`client/command_line.cpp`)

A word can be typed plainly, in quotes of either kind or with a backslash before every
character. Whatever the parser holds when such a spelling begins, it holds the same with
the word added when it ends; blanks outside of quotes close the word.
-/
namespace TorrentAtlas

/-- The ways to type a word. -/
inductive Spelling
  | plain
  | quoted (quote : UInt8)
  | escaped
  deriving DecidableEq, Repr

namespace Spelling

open WordScan

/-- The words that a spelling is for. -/
def Fits : Spelling → Bytes → Prop
  | plain, word => word ≠ [] ∧ ∀ b ∈ word, isSpace b = false ∧ b ≠ singleQuote ∧ b ≠ doubleQuote ∧ b ≠ backslash
  | quoted quote, _ => quote = singleQuote ∨ quote = doubleQuote
  | escaped, word => word ≠ []

instance : ∀ (spelling : Spelling) (word : Bytes), Decidable (spelling.Fits word)
  | plain, _ => inferInstanceAs (Decidable (_ ∧ _))
  | quoted _, _ => inferInstanceAs (Decidable (_ ∨ _))
  | escaped, _ => inferInstanceAs (Decidable (_ ≠ _))

/-- A character after a backslash. -/
def afterBackslash (b : UInt8) : Bytes := [backslash, b]

/-- A character in quotes: a backslash stands before that quote and before backslashes. -/
def inQuotes (quote b : UInt8) : Bytes := if b = quote ∨ b = backslash then afterBackslash b else [b]

def spell : Spelling → Bytes → Bytes
  | plain, word => word
  | quoted quote, word => [quote] ++ word.flatMap (inQuotes quote) ++ [quote]
  | escaped, word => word.flatMap afterBackslash

end Spelling

/-- A word, how it is typed, and the blanks typed before it. -/
structure TypedWord where
  gap : Bytes
  spelling : Spelling
  word : Bytes
  blank : ∀ b ∈ gap, isSpace b = true
  fits : spelling.Fits word

def TypedWord.text (t : TypedWord) : Bytes := t.gap ++ t.spelling.spell t.word

/-- A line with these words and blanks at its end. -/
def typedLine (typed : List TypedWord) (trailing : Bytes) : Bytes := typed.flatMap TypedWord.text ++ trailing

namespace WordScan

/-- The parser with more characters of the word it is in. -/
def push (s : WordScan) (word : Bytes) : WordScan := { s with current := s.current ++ word, inWord := true }

/-- The parser after a blank. -/
def cut (s : WordScan) : WordScan := ⟨s.finish, [], 0, false, false⟩

variable {s : WordScan} {b quote : UInt8} {word : Bytes}

@[simp] theorem push_quote (s : WordScan) (word : Bytes) : (s.push word).quote = s.quote := rfl
@[simp] theorem push_escaped (s : WordScan) (word : Bytes) : (s.push word).escaped = s.escaped := rfl
@[simp] theorem push_inWord (s : WordScan) (word : Bytes) : (s.push word).inWord = true := rfl

@[simp] theorem push_push (s : WordScan) (a b : Bytes) : (s.push a).push b = s.push (a ++ b) := by
  simp [push]

theorem push_nil (h : s.inWord = true) : s.push [] = s := by
  cases s
  simp only at h
  simp [push, h]

section Step

/-- A backslash takes the next character as it is, in quotes or not. -/
theorem foldl_afterBackslash (h : s.escaped = false) (b : UInt8) :
    (Spelling.afterBackslash b).foldl step s = s.push [b] := by
  simp [Spelling.afterBackslash, step, push, h]

theorem step_plain (hq : s.quote = 0) (he : s.escaped = false)
    (hb : isSpace b = false ∧ b ≠ singleQuote ∧ b ≠ doubleQuote ∧ b ≠ backslash) : step s b = s.push [b] := by
  obtain ⟨hspace, hsingle, hdouble, hbackslash⟩ := hb
  simp [step, push, hq, he, hspace, hsingle, hdouble, hbackslash]

theorem foldl_inQuotes (hquote : quote ≠ 0) (hq : s.quote = quote) (he : s.escaped = false) (b : UInt8) :
    (Spelling.inQuotes quote b).foldl step s = s.push [b] := by
  unfold Spelling.inQuotes
  split
  · exact foldl_afterBackslash he b
  · next hplain =>
    rw [not_or] at hplain
    simp [step, push, hq, he, hquote, hplain.1, hplain.2]

theorem step_open (hq : s.quote = 0) (he : s.escaped = false) (h : quote = singleQuote ∨ quote = doubleQuote) :
    step s quote = { s with quote, inWord := true } := by
  have hbackslash : quote ≠ backslash := by rcases h with rfl | rfl <;> decide
  simp [step, hq, he, hbackslash, h]

theorem step_close (hquote : quote = singleQuote ∨ quote = doubleQuote) (hq : s.quote = quote)
    (he : s.escaped = false) : step s quote = { s with quote := 0, inWord := true } := by
  have hbackslash : quote ≠ backslash := by rcases hquote with rfl | rfl <;> decide
  have hzero : quote ≠ 0 := by rcases hquote with rfl | rfl <;> decide
  simp [step, hq, he, hbackslash, hzero]

theorem step_blank (hq : s.quote = 0) (he : s.escaped = false) (hb : isSpace b = true) : step s b = s.cut := by
  have hmark : b ≠ backslash ∧ b ≠ singleQuote ∧ b ≠ doubleQuote := by
    refine ⟨?_, ?_, ?_⟩ <;>
    · rintro rfl
      exact absurd hb (by decide)
  simp [step, cut, finish, hq, he, hb, hmark.1, hmark.2.1, hmark.2.2]

end Step

/-- A spelling that adds each character on its own adds the whole word. -/
theorem foldl_units {unit : UInt8 → Bytes}
    (hunit : ∀ b ∈ word, ∀ s : WordScan, s.quote = quote → s.escaped = false → (unit b).foldl step s = s.push [b])
    (hq : s.quote = quote) (he : s.escaped = false) (hne : s.inWord = true ∨ word ≠ []) :
    (word.flatMap unit).foldl step s = s.push word := by
  induction word generalizing s with
  | nil => exact (push_nil (by simpa using hne)).symm
  | cons b rest ih =>
    rw [List.flatMap_cons, List.foldl_append, hunit b List.mem_cons_self s hq he]
    rw [ih (fun c hc => hunit c (List.mem_cons_of_mem _ hc)) (by simpa using hq) (by simpa using he) (Or.inl rfl)]
    simp

/-- Every spelling of a word adds it to what the parser holds. -/
theorem foldl_spell {spelling : Spelling} (h : spelling.Fits word) (hq : s.quote = 0) (he : s.escaped = false) :
    (spelling.spell word).foldl step s = s.push word := by
  cases spelling with
  | plain =>
    have hone : word.flatMap (fun b => [b]) = word := by simp
    have hfold := @foldl_units s 0 word (fun b => [b]) (fun b hb t htq hte => step_plain htq hte (h.2 b hb)) hq he
      (Or.inr h.1)
    rwa [hone] at hfold
  | escaped =>
    exact foldl_units (fun b _ t _ hte => foldl_afterBackslash hte b) hq he (Or.inr h)
  | quoted quote =>
    have hzero : quote ≠ 0 := by rcases h with rfl | rfl <;> decide
    rw [Spelling.spell, List.foldl_append, List.foldl_append]
    change step ((word.flatMap (Spelling.inQuotes quote)).foldl step (step s quote)) quote = s.push word
    have hfold := @foldl_units { s with quote, inWord := true } quote word _
      (fun b _ t htq hte => foldl_inQuotes hzero htq hte b) rfl he (Or.inl rfl)
    have hclose := @step_close (push { s with quote, inWord := true } word) quote h rfl he
    rw [step_open hq he h, hfold, hclose]
    simp [push, hq]

/-- Blanks close a word; without a word open they do nothing. -/
theorem foldl_gap {gap : Bytes} (hblank : ∀ b ∈ gap, isSpace b = true) (hq : s.quote = 0) (he : s.escaped = false)
    (hopen : s.inWord = false → s.current = []) (hgap : gap = [] → s.inWord = false) :
    gap.foldl step s = s.cut := by
  have hidle : ∀ t : WordScan, t.quote = 0 → t.escaped = false → t.inWord = false → t.current = [] → t.cut = t := by
    rintro ⟨words, current, q, e, w⟩ rfl rfl rfl rfl
    rfl
  induction gap generalizing s with
  | nil => exact (hidle s hq he (hgap rfl) (hopen (hgap rfl))).symm
  | cons b rest ih =>
    rw [List.foldl_cons, step_blank hq he (hblank b List.mem_cons_self),
      ih (fun c hc => hblank c (List.mem_cons_of_mem _ hc)) rfl rfl (fun _ => rfl) (fun _ => rfl),
      hidle s.cut rfl rfl rfl rfl]

/-- After a typed word the parser is in it and has finished the words before it. -/
theorem foldl_text (t : TypedWord) (hq : s.quote = 0) (he : s.escaped = false)
    (hopen : s.inWord = false → s.current = []) (hgap : t.gap = [] → s.inWord = false) :
    t.text.foldl step s = ⟨s.finish, t.word, 0, false, true⟩ := by
  rw [TypedWord.text, List.foldl_append, foldl_gap t.blank hq he hopen hgap, foldl_spell t.fits rfl rfl]
  rfl

/-- After some typed words the parser is outside of quotes and, at the end of the line, would return them too. -/
theorem foldl_typed {typed : List TypedWord} (hq : s.quote = 0) (he : s.escaped = false)
    (hopen : s.inWord = false → s.current = []) (hfirst : ∀ t ∈ typed.head?, t.gap = [] → s.inWord = false)
    (hgaps : ∀ t ∈ typed.tail, t.gap ≠ []) :
    ∃ s' : WordScan, (typed.flatMap TypedWord.text).foldl step s = s' ∧ s'.quote = 0 ∧ s'.escaped = false ∧
      (s'.inWord = false → s'.current = []) ∧ s'.finish = s.finish ++ typed.map TypedWord.word := by
  induction typed generalizing s with
  | nil => exact ⟨s, rfl, hq, he, hopen, by simp⟩
  | cons t rest ih =>
    rw [List.tail_cons] at hgaps
    obtain ⟨s', hs', hq', he', hopen', hfinish⟩ := @ih ⟨s.finish, t.word, 0, false, true⟩ rfl rfl (by simp)
      (fun u hu hnil => absurd hnil (hgaps u (List.mem_of_mem_head? hu)))
      (fun u hu => hgaps u (List.mem_of_mem_tail hu))
    refine ⟨s', ?_, hq', he', hopen', ?_⟩
    · rw [List.flatMap_cons, List.foldl_append, foldl_text t hq he hopen (hfirst t rfl), hs']
    · rw [hfinish]
      simp [finish]

end WordScan

/-- Whatever the words, however each is spelled and however many blanks are typed between, before and after them, the
parser returns these words. -/
theorem parse_typedLine (typed : List TypedWord) (trailing : Bytes) (hgaps : ∀ t ∈ typed.tail, t.gap ≠ [])
    (htrailing : ∀ b ∈ trailing, isSpace b = true) :
    parseCommandWords (typedLine typed trailing) = typed.map TypedWord.word := by
  obtain ⟨s, hs, hq, he, hopen, hfinish⟩ := @WordScan.foldl_typed WordScan.start typed rfl rfl (fun _ => rfl)
    (fun _ _ _ => rfl) hgaps
  have hwords : s.finish = typed.map TypedWord.word := by simpa [WordScan.start, WordScan.finish] using hfinish
  rw [parseCommandWords, typedLine, List.foldl_append, hs]
  by_cases hnil : trailing = []
  · rw [hnil, List.foldl_nil, hwords]
  · rw [WordScan.foldl_gap htrailing hq he hopen (fun h => absurd h hnil), ← hwords]
    rfl

/-- Four words, each spelled in its own way; the third is empty and the last ends in a backslash. -/
def mixedWords : List TypedWord := [
  ⟨[], .plain, lit "upload", by simp, by decide +kernel⟩,
  ⟨lit " ", .quoted WordScan.singleQuote, lit "my file", by decide +kernel, by decide +kernel⟩,
  ⟨lit " ", .quoted WordScan.doubleQuote, [], by decide +kernel, by decide +kernel⟩,
  ⟨lit " ", .escaped, lit "a'\\", by decide +kernel, by decide +kernel⟩]

theorem parse_typedLine_mixed : parseCommandWords (lit "upload 'my file' \"\" \\a\\'\\\\ ") =
    [lit "upload", lit "my file", [], lit "a'\\"] := by
  have hline : typedLine mixedWords (lit " ") = lit "upload 'my file' \"\" \\a\\'\\\\ " := by decide +kernel
  rw [← hline]
  have hgaps : ∀ t ∈ mixedWords.tail, t.gap ≠ [] := by simp [mixedWords, lit]
  exact parse_typedLine mixedWords (lit " ") hgaps (by decide +kernel)

end TorrentAtlas
