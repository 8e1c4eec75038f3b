/-
# Reading a command line

`parse_line` of `src/util.c` cuts a line into tokens.  It has four states, writes a NUL over the
character that ends a token, and stores where the token starts; it looks at every character up
to the first NUL, CR or LF, and at that one too.

* `parseLine_accepts`: it returns 0 exactly on the lines that are a sequence of tokens, and then
  the tokens stand in the line as strings.  A NUL is written behind all tokens before it, so none
  is damaged (`StringAt.append`).
* `shellLoop_tokens_iff`: `shell_loop` gives it an array of 256 tokens and no length.  No more
  are stored exactly when no more can be read off the front of the line.
-/
import PfsShell.Lib.Strings
import PfsShell.Lib.Tokens
import PfsShell.Shell.Exec

namespace PfsShell.Shell

open PfsShell.Lib

/-! ## 1. The code -/

/-- `state` of `parse_line`. -/
inductive LineState
  | tokenPending
  | parsePlainToken
  | parseQuotedToken
  | parseAposdToken
  deriving DecidableEq

/-- `parse_line` while it runs: `line` and `start` are offsets in the buffer, and `tokens` are
the elements stored so far. -/
structure Scanner where
  state : LineState := .tokenPending
  start : ℕ := 0
  line : ℕ := 0
  buf : List UInt8
  tokens : List ℕ := []

/-- `*count`. -/
def Scanner.count (s : Scanner) : ℕ := s.tokens.length

/-- `*line = '\0'; (*tokens)[(*count)++] = start; state = s_token_pending;` -/
def Scanner.endToken (s : Scanner) : Scanner :=
  { s with buf := s.buf.set s.line 0, tokens := s.tokens ++ [s.start], state := .tokenPending }

/-- The `switch` on the state; nothing is returned for `return (-1)`. -/
def Scanner.look (ch : UInt8) (s : Scanner) : Option Scanner :=
  match s.state with
  | .tokenPending =>
    if ch = 32 ∨ ch = 9 ∨ ch = 13 ∨ ch = 10 ∨ ch = 0 then some s
    else if ch = 34 then some { s with state := .parseQuotedToken, start := s.line + 1 }
    else if ch = 39 then some { s with state := .parseAposdToken, start := s.line + 1 }
    else some { s with state := .parsePlainToken, start := s.line }
  | .parsePlainToken =>
    if ch = 32 ∨ ch = 9 ∨ ch = 13 ∨ ch = 10 ∨ ch = 0 then some s.endToken
    else if ch = 39 ∨ ch = 34 then none
    else some s
  | .parseQuotedToken =>
    if ch = 0 then none
    else if ch = 34 then some s.endToken
    else some s
  | .parseAposdToken =>
    if ch = 0 then none
    else if ch = 39 then some s.endToken
    else some s

/-- `term`: NUL, CR or LF. -/
def isTerm (ch : UInt8) : Bool := ch = 0 || ch = 13 || ch = 10

/-- `while (!term)`, and what is returned after it.  There is no result when the loop leaves the
buffer. -/
def scanLine : ℕ → Scanner → Option (ℤ × Scanner)
  | 0, _ => none
  | fuel + 1, s =>
    match s.buf[s.line]? with
    | none => none
    | some ch =>
      match s.look ch with
      | none => some (-1, s)
      | some s =>
        if isTerm ch then
          some (if s.state = .tokenPending then 0 else -1, { s with line := s.line + 1 })
        else scanLine fuel { s with line := s.line + 1 }

/-- `parse_line(line, tokens, count)`. -/
def parseLine (line : List UInt8) : Option (ℤ × Scanner) := scanLine line.length { buf := line }

/-- The string that starts at an offset of the buffer. -/
def stringAt (buf : List UInt8) (start : ℕ) : CStr := cutAt 0 (buf.drop start)

/-- `argv`. -/
def Scanner.argv (s : Scanner) : List CStr := s.tokens.map (stringAt s.buf)

/-! ## 2. What the states stand for -/

/-- Space and tab are blanks, the double quote and the apostrophe are quotes. -/
def lineQuoting : Quoting UInt8 where
  blank c := c = 32 || c = 9
  quote c := c = 34 || c = 39
  disjoint c h := by
    rcases Bool.or_eq_true_iff.mp h with h | h
    · rw [of_decide_eq_true h]
      rfl
    · rw [of_decide_eq_true h]
      rfl

/-- The text of a line: the part before the first NUL, CR or LF. -/
def text (line : List UInt8) : CStr := line.takeWhile fun c => !isTerm c

/-- The state of the scanner in each mode, and where the token begins that it is in: after
`start` the scanned part holds the characters of the token. -/
def InMode (scanned : List UInt8) (s : Scanner) : Quoting.Mode UInt8 → Prop
  | .pending => s.state = .tokenPending
  | .plain tok => s.state = .parsePlainToken ∧ s.start ≤ scanned.length ∧
      scanned.drop s.start = tok ∧ 0 ∉ tok
  | .quoted q tok => ((q = 34 ∧ s.state = .parseQuotedToken) ∨
      (q = 39 ∧ s.state = .parseAposdToken)) ∧ s.start ≤ scanned.length ∧
      scanned.drop s.start = tok ∧ 0 ∉ tok

/-- **The invariant of the scan.**  The buffer is the scanned part and what lies ahead, the mode
is `m`, and the tokens stored are the strings `ts` of the scanned part. -/
structure Scanned (scanned ahead : List UInt8) (m : Quoting.Mode UInt8) (ts : List CStr)
    (s : Scanner) : Prop where
  buf : s.buf = scanned ++ ahead
  line : s.line = scanned.length
  mode : InMode scanned s m
  tokens : List.Forall₂ (StringAt scanned) s.tokens ts

/-- What is written behind the tokens damages none of them. -/
theorem stringAt_append_all {buf : List UInt8} {starts : List ℕ} {ts : List CStr}
    (h : List.Forall₂ (StringAt buf) starts ts) (more : List UInt8) :
    List.Forall₂ (StringAt (buf ++ more)) starts ts :=
  h.imp fun _ _ h => h.append more

/-! ## 3. One character -/

section Look

variable {scanned ahead : List UInt8} {m m' : Quoting.Mode UInt8} {ts : List CStr}
variable {s s' : Scanner} {c : UInt8}

/-- A character that only changes the state. -/
theorem Scanned.move (h : Scanned scanned (c :: ahead) m ts s) (hbuf : s'.buf = s.buf)
    (hline : s'.line = s.line) (htokens : s'.tokens = s.tokens)
    (hmode : InMode (scanned ++ [c]) s' m') :
    Scanned (scanned ++ [c]) ahead m' ts { s' with line := s'.line + 1 } where
  buf := by simp [hbuf, h.buf]
  line := by simp [hline, h.line]
  mode := by cases m' <;> exact hmode
  tokens := by
    show List.Forall₂ _ s'.tokens ts
    rw [htokens]
    exact stringAt_append_all h.tokens [c]

/-- **The character that ends a token** gives way to the NUL of its string. -/
theorem Scanned.endToken {tok : CStr} (h : Scanned scanned (c :: ahead) m ts s)
    (hle : s.start ≤ scanned.length) (hdrop : scanned.drop s.start = tok) (hnul : 0 ∉ tok) :
    Scanned (scanned ++ [0]) ahead .pending (ts ++ [tok])
      { s.endToken with line := s.endToken.line + 1 } where
  buf := by
    show s.buf.set s.line 0 = _
    rw [h.buf, h.line, List.set_append_right _ _ (Nat.le_refl _), Nat.sub_self, List.set_cons_zero,
      List.append_assoc, List.singleton_append]
  line := by
    show s.line + 1 = _
    rw [h.line, List.length_append, List.length_singleton]
  mode := rfl
  tokens := by
    show List.Forall₂ _ (s.tokens ++ [s.start]) (ts ++ [tok])
    refine List.rel_append (stringAt_append_all h.tokens [0]) ?_
    exact .cons (stringAt_of_drop hle hdrop hnul) .nil

/-- The character the loop looks at. -/
theorem Scanned.getElem? (h : Scanned scanned (c :: ahead) m ts s) : s.buf[s.line]? = some c := by
  rw [h.buf, h.line, List.getElem?_append_right (Nat.le_refl _), Nat.sub_self]
  rfl

theorem Scanned.turn (h : Scanned scanned (c :: ahead) m ts s) (fuel : ℕ) (hc : isTerm c = false)
    (hlook : s.look c = some s') :
    scanLine (fuel + 1) s = scanLine fuel { s' with line := s'.line + 1 } := by
  rw [scanLine, h.getElem?]
  dsimp only
  rw [hlook]
  dsimp only
  rw [if_neg (by simp [hc])]

theorem isTerm_false (hc : isTerm c = false) : c ≠ 0 ∧ c ≠ 13 ∧ c ≠ 10 := by
  simpa [isTerm, and_assoc] using hc

theorem blank_iff : lineQuoting.blank c = true ↔ c = 32 ∨ c = 9 := by
  simp [lineQuoting]

theorem quote_iff : lineQuoting.quote c = true ↔ c = 34 ∨ c = 39 := by
  simp [lineQuoting]

/-- A character goes into the token. -/
theorem token_concat {start : ℕ} {tok : CStr}
    (h : start ≤ scanned.length ∧ scanned.drop start = tok ∧ 0 ∉ tok) (hc : c ≠ 0) :
    start ≤ (scanned ++ [c]).length ∧ (scanned ++ [c]).drop start = tok ++ [c] ∧
      0 ∉ tok ++ [c] := by
  obtain ⟨hle, hdrop, hnul⟩ := h
  refine ⟨?_, ?_, ?_⟩
  · rw [List.length_append]
    exact Nat.le_add_right_of_le hle
  · rw [List.drop_append_of_le_length hle, hdrop]
  · simpa [hnul] using Ne.symm hc

/-- A plain token begins at the character. -/
theorem Scanned.startPlain (h : Scanned scanned (c :: ahead) .pending ts s) (hnul : c ≠ 0) :
    InMode (scanned ++ [c]) { s with state := .parsePlainToken, start := s.line }
      (.plain [c]) := by
  refine ⟨rfl, ?_, ?_, ?_⟩
  · show s.line ≤ _
    rw [h.line, List.length_append]
    exact Nat.le_add_right _ _
  · show (scanned ++ [c]).drop s.line = _
    rw [h.line, List.drop_left]
  · rw [List.mem_singleton]
    exact Ne.symm hnul

/-- A quoted token begins behind its quote. -/
theorem Scanned.startQuoted (h : Scanned scanned (c :: ahead) .pending ts s) {state : LineState}
    (hq : (c = 34 ∧ state = .parseQuotedToken) ∨ (c = 39 ∧ state = .parseAposdToken)) :
    InMode (scanned ++ [c]) { s with state := state, start := s.line + 1 } (.quoted c []) := by
  have hlen : s.line + 1 = (scanned ++ [c]).length := by
    rw [h.line, List.length_append, List.length_singleton]
  refine ⟨hq, Nat.le_of_eq hlen, ?_, List.not_mem_nil⟩
  exact List.drop_eq_nil_of_le (Nat.le_of_eq hlen.symm)

/-- The state a quote leads to. -/
def quotedState (c : UInt8) : LineState := if c = 34 then .parseQuotedToken else .parseAposdToken

theorem quotedState_of_quote (hq : lineQuoting.quote c = true) :
    (c = 34 ∧ quotedState c = .parseQuotedToken) ∨
      (c = 39 ∧ quotedState c = .parseAposdToken) := by
  rcases quote_iff.mp hq with rfl | rfl
  · exact .inl ⟨rfl, rfl⟩
  · exact .inr ⟨rfl, rfl⟩

/-- Between tokens: blanks are skipped, and anything else begins a token. -/
theorem Scanned.look_pending (h : Scanned scanned (c :: ahead) .pending ts s)
    (hc : isTerm c = false) :
    s.look c = if lineQuoting.blank c then some s
      else if lineQuoting.quote c then
        some { s with state := quotedState c, start := s.line + 1 }
      else some { s with state := .parsePlainToken, start := s.line } := by
  obtain ⟨hnul, hcr, hlf⟩ := isTerm_false hc
  have hmode : s.state = .tokenPending := h.mode
  rw [Scanner.look, hmode]
  by_cases h34 : c = 34
  · subst h34
    rfl
  · by_cases h39 : c = 39
    · subst h39
      rfl
    · simp only [hnul, hcr, hlf, h34, h39, or_false, blank_iff, quote_iff, if_false]

/-- In a plain token: a blank ends it, a quote is refused, and anything else goes into it. -/
theorem Scanned.look_plain {tok : CStr} (h : Scanned scanned (c :: ahead) (.plain tok) ts s)
    (hc : isTerm c = false) :
    s.look c = if lineQuoting.blank c then some s.endToken
      else if lineQuoting.quote c then none else some s := by
  obtain ⟨hnul, hcr, hlf⟩ := isTerm_false hc
  rw [Scanner.look, h.mode.1]
  simp only [hnul, hcr, hlf, or_false, blank_iff, quote_iff, @or_comm (c = 39)]

/-- In a quoted token: the same quote ends it, and anything else goes into it. -/
theorem Scanned.look_quoted {q : UInt8} {tok : CStr}
    (h : Scanned scanned (c :: ahead) (.quoted q tok) ts s) (hc : isTerm c = false) :
    s.look c = if c = q then some s.endToken else some s := by
  obtain ⟨hnul, -, -⟩ := isTerm_false hc
  rw [Scanner.look]
  rcases h.mode.1 with ⟨rfl, hs⟩ | ⟨rfl, hs⟩
  · simp only [hs, if_neg hnul]
  · simp only [hs, if_neg hnul]

/-! ## 4. The scan -/

/-- What the scan leaves in every mode at the character that stops it: a plain token ends there,
and a quote is missing when a quoted one has not ended. -/
theorem Scanned.stop {t : UInt8} {beyond : List UInt8} (h : Scanned scanned (t :: beyond) m ts s)
    (ht : isTerm t = true) (fuel : ℕ) :
    ∃ s', scanLine (fuel + 1) s = some (if (lineQuoting.lex m []).2 then 0 else -1, s') ∧
      List.Forall₂ (StringAt s'.buf) s'.tokens (ts ++ (lineQuoting.lex m []).1) := by
  have hterm : t = 0 ∨ t = 13 ∨ t = 10 := by simpa [isTerm, or_assoc] using ht
  have hspace : t = 32 ∨ t = 9 ∨ t = 13 ∨ t = 10 ∨ t = 0 := by tauto
  have hkept : List.Forall₂ (StringAt s.buf) s.tokens ts := by
    rw [h.buf]
    exact stringAt_append_all h.tokens _
  rw [scanLine, h.getElem?]
  cases m with
  | pending =>
    have hlook : s.look t = some s := by
      rw [Scanner.look, h.mode]
      exact if_pos hspace
    have hmode : s.state = .tokenPending := h.mode
    refine ⟨{ s with line := s.line + 1 }, ?_, ?_⟩
    · dsimp only
      rw [hlook]
      dsimp only
      rw [if_pos ht, if_pos hmode]
      rfl
    · rw [Quoting.lex, List.append_nil]
      exact hkept
  | plain tok =>
    have hlook : s.look t = some s.endToken := by
      rw [Scanner.look, h.mode.1]
      exact if_pos hspace
    have hend := h.endToken h.mode.2.1 h.mode.2.2.1 h.mode.2.2.2
    have hpend : s.endToken.state = .tokenPending := rfl
    refine ⟨{ s.endToken with line := s.endToken.line + 1 }, ?_, ?_⟩
    · dsimp only
      rw [hlook]
      dsimp only
      rw [if_pos ht, if_pos hpend]
      rfl
    · rw [hend.buf]
      exact stringAt_append_all hend.tokens beyond
  | quoted q tok =>
    have hopen : s.state ≠ .tokenPending := by
      rcases h.mode.1 with ⟨-, hs⟩ | ⟨-, hs⟩
      · rw [hs]
        decide
      · rw [hs]
        decide
    have hlook : s.look t = none ∨ s.look t = some s := by
      rcases h.mode.1 with ⟨rfl, hs⟩ | ⟨rfl, hs⟩
      · rcases hterm with rfl | rfl | rfl <;> simp [Scanner.look, hs]
      · rcases hterm with rfl | rfl | rfl <;> simp [Scanner.look, hs]
    rw [Quoting.lex, List.append_nil]
    rcases hlook with hlook | hlook
    · refine ⟨s, ?_, hkept⟩
      dsimp only
      rw [hlook]
      rfl
    · refine ⟨{ s with line := s.line + 1 }, ?_, hkept⟩
      dsimp only
      rw [hlook]
      dsimp only
      rw [if_pos ht, if_neg hopen]
      rfl

end Look

/-- **The scan does what the machine does.**  The induction is on what is left of the text; the
invariant `Scanned` goes from character to character. -/
theorem scanLine_lex {t : UInt8} {beyond : List UInt8} (ht : isTerm t = true) (left : CStr) :
    ∀ (scanned : List UInt8) (m : Quoting.Mode UInt8) (ts : List CStr) (s : Scanner) (fuel : ℕ),
      (∀ c ∈ left, isTerm c = false) → Scanned scanned (left ++ t :: beyond) m ts s →
      left.length < fuel →
      ∃ s', scanLine fuel s = some (if (lineQuoting.lex m left).2 then 0 else -1, s') ∧
        List.Forall₂ (StringAt s'.buf) s'.tokens (ts ++ (lineQuoting.lex m left).1) := by
  induction left with
  | nil =>
    intro scanned m ts s fuel _ h hfuel
    obtain ⟨fuel, rfl⟩ := Nat.exists_eq_succ_of_ne_zero (Nat.ne_of_gt hfuel)
    exact h.stop ht fuel
  | cons c left ih =>
    intro scanned m ts s fuel hleft h hfuel
    have hc := hleft c (List.mem_cons_self ..)
    have hrest : ∀ d ∈ left, isTerm d = false := fun d hd => hleft d (List.mem_cons_of_mem _ hd)
    obtain ⟨fuel, rfl⟩ := Nat.exists_eq_succ_of_ne_zero (Nat.ne_zero_of_lt hfuel)
    have hlen : left.length < fuel := Nat.lt_of_succ_lt_succ hfuel
    have hnul := (isTerm_false hc).1
    rw [List.cons_append] at h
    cases m with
    | pending =>
      have hlook := h.look_pending hc
      rw [Quoting.lex]
      by_cases hb : lineQuoting.blank c = true
      · rw [if_pos hb] at hlook ⊢
        rw [h.turn fuel hc hlook]
        exact ih _ .pending _ _ _ hrest (h.move rfl rfl rfl h.mode) hlen
      · rw [if_neg hb] at hlook ⊢
        by_cases hq : lineQuoting.quote c = true
        · rw [if_pos hq] at hlook ⊢
          rw [h.turn fuel hc hlook]
          have hopen := quotedState_of_quote hq
          exact ih _ (.quoted c []) _ _ _ hrest (h.move rfl rfl rfl (h.startQuoted hopen)) hlen
        · rw [if_neg hq] at hlook ⊢
          rw [h.turn fuel hc hlook]
          exact ih _ (.plain [c]) _ _ _ hrest (h.move rfl rfl rfl (h.startPlain hnul)) hlen
    | plain tok =>
      obtain ⟨-, hle, hdrop, htok⟩ := h.mode
      have hlook := h.look_plain hc
      rw [Quoting.lex]
      by_cases hb : lineQuoting.blank c = true
      · rw [if_pos hb] at hlook ⊢
        rw [h.turn fuel hc hlook]
        obtain ⟨s', hs', htokens⟩ := ih _ _ _ _ _ hrest (h.endToken hle hdrop htok) hlen
        refine ⟨s', hs', ?_⟩
        rw [List.append_assoc] at htokens
        exact htokens
      · rw [if_neg hb] at hlook ⊢
        by_cases hq : lineQuoting.quote c = true
        · rw [if_pos hq] at hlook ⊢
          refine ⟨s, ?_, ?_⟩
          · rw [scanLine, h.getElem?]
            dsimp only
            rw [hlook]
            rfl
          · rw [List.append_nil, h.buf]
            exact stringAt_append_all h.tokens _
        · rw [if_neg hq] at hlook ⊢
          rw [h.turn fuel hc hlook]
          exact ih _ (.plain (tok ++ [c])) _ _ _ hrest
            (h.move rfl rfl rfl ⟨h.mode.1, token_concat h.mode.2 hnul⟩) hlen
    | quoted q tok =>
      obtain ⟨-, hle, hdrop, htok⟩ := h.mode
      have hlook := h.look_quoted hc
      rw [Quoting.lex]
      by_cases hq : c = q
      · rw [if_pos hq] at hlook ⊢
        rw [h.turn fuel hc hlook]
        obtain ⟨s', hs', htokens⟩ := ih _ _ _ _ _ hrest (h.endToken hle hdrop htok) hlen
        refine ⟨s', hs', ?_⟩
        rw [List.append_assoc] at htokens
        exact htokens
      · rw [if_neg hq] at hlook ⊢
        rw [h.turn fuel hc hlook]
        exact ih _ (.quoted q (tok ++ [c])) _ _ _ hrest
          (h.move rfl rfl rfl ⟨h.mode.1, token_concat h.mode.2 hnul⟩) hlen

/-! ## 5. What is accepted -/

/-- A line is its text, the character that ends it, and what lies behind. -/
theorem text_split {line : List UInt8} (h : 0 ∈ line) : ∃ t beyond,
    line = text line ++ t :: beyond ∧ isTerm t = true := by
  have hsplit := List.takeWhile_append_dropWhile (p := fun c => !isTerm c) (l := line)
  have hne : line.dropWhile (fun c => !isTerm c) ≠ [] := by
    intro hnil
    have hall := List.dropWhile_eq_nil_iff.mp hnil 0 h
    exact absurd hall (by decide)
  obtain ⟨t, beyond, hdrop⟩ := List.exists_cons_of_ne_nil hne
  refine ⟨t, beyond, ?_, ?_⟩
  · rw [← hdrop]
    exact hsplit.symm
  · have ht := List.head_dropWhile_not (fun c => !isTerm c) hne
    simp only [hdrop, List.head_cons] at ht
    simpa using ht

theorem text_not_term {line : List UInt8} : ∀ c ∈ text line, isTerm c = false := by
  intro c hc
  simpa using List.mem_takeWhile_imp hc

/-- **`parse_line` does what the machine does on the text of the line.** -/
theorem parseLine_lex {line : List UInt8} (h : 0 ∈ line) : ∃ s,
    parseLine line = some (if (lineQuoting.lex .pending (text line)).2 then 0 else -1, s) ∧
      List.Forall₂ (StringAt s.buf) s.tokens (lineQuoting.lex .pending (text line)).1 := by
  obtain ⟨t, beyond, hsplit, ht⟩ := text_split h
  have hstart : Scanned [] (text line ++ t :: beyond) .pending [] { buf := line } :=
    ⟨hsplit, rfl, rfl, .nil⟩
  have hfuel : (text line).length < line.length := by
    have hlen := congrArg List.length hsplit
    rw [List.length_append, List.length_cons] at hlen
    omega
  exact scanLine_lex ht (text line) [] .pending [] _ line.length text_not_term hstart hfuel

/-- **`parse_line` accepts exactly its grammar.**  On a line whose text is a sequence of tokens it
returns 0, `*count` is their number, and each stands in the buffer as a string; on every other
line it returns -1. -/
theorem parseLine_accepts {line : List UInt8} (h : 0 ∈ line) :
    (∀ ts, lineQuoting.Reads (text line) ts [] → ∃ s, parseLine line = some (0, s) ∧
      s.count = ts.length ∧ List.Forall₂ (StringAt s.buf) s.tokens ts) ∧
    ((¬ ∃ ts, lineQuoting.Reads (text line) ts []) → ∃ s, parseLine line = some (-1, s)) := by
  obtain ⟨s, hs, htokens⟩ := parseLine_lex h
  constructor
  · intro ts hreads
    have hlex := Quoting.lex_iff.mpr hreads
    rw [hlex] at hs htokens
    exact ⟨s, hs, htokens.length_eq, htokens⟩
  · intro hno
    refine ⟨s, ?_⟩
    rw [hs]
    have hfalse : ¬ (lineQuoting.lex .pending (text line)).2 = true := by
      intro htrue
      exact hno ⟨_, Quoting.lex_iff.mp (Prod.ext rfl htrue)⟩
    rw [if_neg hfalse]

/-- `a 'b "'c` and a line feed. -/
def quotedLine : List UInt8 := [97, 32, 39, 98, 32, 34, 39, 99, 10, 0]

theorem parseLine_accepts_quoted : 0 ∈ quotedLine ∧
    ((∀ ts, lineQuoting.Reads (text quotedLine) ts [] → ∃ s, parseLine quotedLine = some (0, s) ∧
      s.count = ts.length ∧ List.Forall₂ (StringAt s.buf) s.tokens ts) ∧
    ((¬ ∃ ts, lineQuoting.Reads (text quotedLine) ts []) →
      ∃ s, parseLine quotedLine = some (-1, s))) :=
  ⟨by decide, parseLine_accepts (by decide)⟩

example : (parseLine quotedLine).map (fun r => (r.1, r.2.argv)) =
    some (0, [[97], [98, 32, 34], [99]]) := by decide

/-! ## 6. The array of tokens -/

/-- The first line of the input with its line feed, and the input behind it. -/
def splitLine : List UInt8 → List UInt8 × List UInt8
  | [] => ([], [])
  | c :: cs => if c = 10 then ([c], cs) else (c :: (splitLine cs).1, (splitLine cs).2)

/-- `getline`: the line with a NUL behind it, or nothing at the end of the input. -/
def getline (input : List UInt8) : Option (List UInt8 × List UInt8) :=
  if input = [] then none else some ((splitLine input).1 ++ [0], (splitLine input).2)

/-- `!strncmp(line, "exit", 4) || !strncmp(line, "quit", 4) || !strncmp(line, "bye", 3)`. -/
def leaves (line : List UInt8) : Bool :=
  (ascii ['e', 'x', 'i', 't']).isPrefixOf line || (ascii ['q', 'u', 'i', 't']).isPrefixOf line ||
    (ascii ['b', 'y', 'e']).isPrefixOf line

/-- `sizeof(tokens) / sizeof(tokens[0])` of `shell_loop`. -/
def maxTokens : ℕ := 256

section Loop

variable {σ : Type} (io : IomanX σ) (uninit : IoxDirent) (fuel : ℕ)

/-- One turn of `shell_loop`, without its prompt and its own messages.  There is no result when a
token is stored behind the array. -/
def shellTurn (line : List UInt8) (s : Session σ) : Option (Session σ) :=
  match parseLine line with
  | none => none
  | some (result, p) =>
    if maxTokens < p.count then none
    else if 0 ≤ result then execStep io uninit fuel p.argv s
    else some s

/-- The lines that `shell_loop` gives to `parse_line`. -/
def parsedLines : ℕ → List UInt8 → Session σ → List (List UInt8)
  | 0, _, _ => []
  | turns + 1, input, s =>
    match getline input with
    | none => []
    | some (line, rest) =>
      if leaves line then []
      else
        line :: match shellTurn io uninit fuel line s with
          | none => []
          | some s => parsedLines turns rest s

end Loop

/-- Every line that is read ends with a NUL. -/
theorem getline_nul {input line rest : List UInt8} (h : getline input = some (line, rest)) :
    0 ∈ line := by
  rw [getline] at h
  split at h
  · cases h
  · cases h
    exact List.mem_append_right _ (List.mem_singleton_self 0)

section Loop

variable {σ : Type} {io : IomanX σ} {uninit : IoxDirent} {fuel turns : ℕ} {s : Session σ}
variable {input line : List UInt8}

/-- One turn per line: what is parsed is the line just read or one of the lines behind it. -/
theorem parsedLines_nul (h : line ∈ parsedLines io uninit fuel turns input s) : 0 ∈ line := by
  induction turns generalizing input s with
  | zero => cases h
  | succ turns ih =>
    rw [parsedLines] at h
    cases hget : getline input with
    | none =>
      rw [hget] at h
      cases h
    | some r =>
      rw [hget] at h
      dsimp only at h
      split at h
      · cases h
      · rcases List.mem_cons.mp h with rfl | h
        · exact getline_nul hget
        · split at h
          · cases h
          · exact ih h

end Loop

/-- As many tokens are stored as can be read off the front of the line. -/
theorem parseLine_count_le {line : List UInt8} (h : 0 ∈ line) (n : ℕ) :
    (∃ result p, parseLine line = some (result, p) ∧ p.count ≤ n) ↔
      ∀ ts rest, lineQuoting.Reads (text line) ts rest → ts.length ≤ n := by
  obtain ⟨s, hs, htokens⟩ := parseLine_lex h
  rw [← Quoting.lex_length_le, ← htokens.length_eq, hs]
  constructor
  · rintro ⟨result, p, hp, hcount⟩
    cases hp
    exact hcount
  · intro hcount
    exact ⟨_, s, rfl, hcount⟩

/-- **The array is large enough for a line exactly when no more than 256 tokens can be read off
the front of it.**  Nothing else bounds what is stored: `parse_line` is not told how many elements
there are, and `getline` reads lines of any length. -/
theorem shellLoop_tokens_iff {σ : Type} {io : IomanX σ} {uninit : IoxDirent} {fuel turns : ℕ}
    {s : Session σ} {input line : List UInt8}
    (h : line ∈ parsedLines io uninit fuel turns input s) :
    (∃ result p, parseLine line = some (result, p) ∧ p.count ≤ maxTokens) ↔
      ∀ ts left, lineQuoting.Reads (text line) ts left → ts.length ≤ maxTokens :=
  parseLine_count_le (parsedLines_nul h) maxTokens

/-- A disk on which every call returns 0. -/
def idle : IomanX Unit := fun _ w => ({}, w)

/-- The first line is parsed when it does not end the shell. -/
theorem mem_parsedLines {σ : Type} {io : IomanX σ} {uninit : IoxDirent} {fuel turns : ℕ}
    {s : Session σ} {input line rest : List UInt8} (h : getline input = some (line, rest))
    (hstay : leaves line = false) : line ∈ parsedLines io uninit fuel (turns + 1) input s := by
  rw [parsedLines, h]
  dsimp only
  rw [hstay]
  exact List.mem_cons_self ..

theorem ls_parsed : [108, 115, 10, 0] ∈ parsedLines idle {} 1 1 [108, 115, 10] (started ()) := by
  have hline : getline [108, 115, 10] = some ([108, 115, 10, 0], []) := by decide
  exact mem_parsedLines hline (by decide)

theorem shellLoop_tokens_iff_ls :
    [108, 115, 10, 0] ∈ parsedLines idle {} 1 1 [108, 115, 10] (started ()) ∧
    ((∃ result p, parseLine [108, 115, 10, 0] = some (result, p) ∧ p.count ≤ maxTokens) ↔
      ∀ ts left, lineQuoting.Reads (text [108, 115, 10, 0]) ts left → ts.length ≤ maxTokens) :=
  ⟨ls_parsed, shellLoop_tokens_iff ls_parsed⟩

/-- `n` tokens of one letter, each with a blank behind it. -/
def letters (n : ℕ) : List UInt8 := (List.replicate n [97, 32]).flatten

theorem letters_succ (n : ℕ) : letters (n + 1) = 97 :: 32 :: letters n := rfl

theorem reads_letters (n : ℕ) : lineQuoting.Reads (letters n) (List.replicate n [97]) [] := by
  induction n with
  | zero => exact .done
  | succ n ih =>
    show lineQuoting.Reads ([97] ++ 32 :: letters n) ([97] :: List.replicate n [97]) []
    refine .plain (List.cons_ne_nil _ _) ?_ ?_ (.blank rfl ih)
    · intro c hc
      rw [List.mem_singleton.mp hc]
      exact ⟨rfl, rfl⟩
    · exact Quoting.stops_cons rfl

theorem splitLine_letters (n : ℕ) : splitLine (letters n) = (letters n, []) := by
  induction n with
  | zero => rfl
  | succ n ih => simp [letters_succ, splitLine, ih]

theorem text_letters (n : ℕ) : text (letters n ++ [0]) = letters n := by
  induction n with
  | zero => rfl
  | succ n ih =>
    rw [letters_succ]
    simp only [text, List.cons_append] at ih ⊢
    rw [List.takeWhile_cons_of_pos (by rfl), List.takeWhile_cons_of_pos (by rfl), ih]

/-- **A line of 257 letters overruns the array.** -/
theorem tokens_overrun : ¬ ∀ (input line : List UInt8),
    line ∈ parsedLines idle {} 1 1 input (started ()) →
    ∃ result p, parseLine line = some (result, p) ∧ p.count ≤ maxTokens := by
  intro h
  have hline : getline (letters 257) = some (letters 257 ++ [0], []) := by
    rw [getline, if_neg (by rw [letters_succ]; exact List.cons_ne_nil _ _), splitLine_letters]
  have hstay : leaves (letters 257 ++ [0]) = false := by
    rw [letters_succ]
    rfl
  have hfew := (parseLine_count_le (getline_nul hline) maxTokens).mp
    (h _ _ (mem_parsedLines hline hstay))
  rw [text_letters] at hfew
  have hlen := hfew _ _ (reads_letters 257)
  rw [List.length_replicate] at hlen
  exact absurd hlen (by decide)

end PfsShell.Shell
