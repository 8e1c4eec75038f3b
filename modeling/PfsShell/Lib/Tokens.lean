/-
# Tokens with quotes

A line of tokens: blanks stand between them, a token that a quote opens extends to the next same
quote and may hold anything in between, and any other token ends at a blank or at the end of the
text.  After a closing quote the next token may follow at once.

`Reads text ts rest` says that the tokens `ts` can be read off the front of `text`, and what is
left then.  `lex` is a machine that reads a text character by character, in three modes.

* `reads_lex`: the machine reads tokens off the front, and all of the text when it accepts.
* `Reads.prefix_lex`: what can be read off the front is the beginning of what the machine reads.
* `lex_iff`: it accepts exactly the texts that are a sequence of tokens.
* `reads_render`: tokens that are written down in quotes are read back.
-/
import Mathlib.Data.List.Basic
import Mathlib.Tactic.Common

namespace PfsShell.Lib

/-- The blanks and the quotes of an alphabet. -/
structure Quoting (α : Type) where
  blank : α → Bool
  quote : α → Bool
  /-- No blank is a quote. -/
  disjoint : ∀ c, blank c = true → quote c = false

namespace Quoting

variable {α : Type} (g : Quoting α)

/-! ## 1. The grammar -/

/-- A character of a token without quotes. -/
def Plain (c : α) : Prop := g.blank c = false ∧ g.quote c = false

/-- A token without quotes ends here: at the end of the text or before a blank. -/
def Stops (rest : List α) : Prop := ∀ c ∈ rest.head?, g.blank c = true

/-- **The grammar.**  The tokens `ts` are read off the front of a text, and `rest` is left. -/
inductive Reads : List α → List (List α) → List α → Prop
  | done {rest : List α} : Reads rest [] rest
  | blank {c : α} {cs : List α} {ts : List (List α)} {rest : List α} (hc : g.blank c = true)
      (h : Reads cs ts rest) : Reads (c :: cs) ts rest
  | quoted {q : α} {body cs : List α} {ts : List (List α)} {rest : List α}
      (hq : g.quote q = true) (hbody : q ∉ body) (h : Reads cs ts rest) :
      Reads (q :: (body ++ q :: cs)) (body :: ts) rest
  | plain {body cs : List α} {ts : List (List α)} {rest : List α} (hne : body ≠ [])
      (hbody : ∀ c ∈ body, g.Plain c) (hcs : g.Stops cs) (h : Reads cs ts rest) :
      Reads (body ++ cs) (body :: ts) rest

/-! ## 2. The machine -/

/-- What the machine is in the middle of, with the characters of the token so far. -/
inductive Mode (α : Type)
  | pending
  | plain (tok : List α)
  | quoted (q : α) (tok : List α)

/-- A token in front of what the machine reads after it. -/
def attach (tok : List α) (r : List (List α) × Bool) : List (List α) × Bool := (tok :: r.1, r.2)

/-- The tokens that the machine ends, and whether it accepts. -/
def lex [DecidableEq α] : Mode α → List α → List (List α) × Bool
  | .pending, [] => ([], true)
  | .pending, c :: cs =>
    if g.blank c then lex .pending cs
    else if g.quote c then lex (.quoted c []) cs
    else lex (.plain [c]) cs
  | .plain tok, [] => ([tok], true)
  | .plain tok, c :: cs =>
    if g.blank c then attach tok (lex .pending cs)
    else if g.quote c then ([], false)
    else lex (.plain (tok ++ [c])) cs
  | .quoted _ _, [] => ([], false)
  | .quoted q tok, c :: cs =>
    if c = q then attach tok (lex .pending cs)
    else lex (.quoted q (tok ++ [c])) cs

/-- What the machine has read of the token it is in. -/
def Mode.begun : Mode α → List α
  | .pending => []
  | .plain tok => tok
  | .quoted q tok => q :: tok

/-- What the machine has read can begin a token. -/
def Mode.Valid (g : Quoting α) : Mode α → Prop
  | .pending => True
  | .plain tok => tok ≠ [] ∧ ∀ c ∈ tok, g.Plain c
  | .quoted q tok => g.quote q = true ∧ q ∉ tok

variable {g}

theorem stops_nil : g.Stops [] := by
  intro c hc
  cases hc

theorem stops_cons {c : α} {cs : List α} (hc : g.blank c = true) : g.Stops (c :: cs) := by
  intro d hd
  obtain rfl := Option.mem_some.mp hd
  exact hc

theorem plain_snoc {tok : List α} {c : α} (h : ∀ d ∈ tok, g.Plain d) (hc : g.Plain c) :
    ∀ d ∈ tok ++ [c], g.Plain d := by
  intro d hd
  rcases List.mem_append.mp hd with hd | hd
  · exact h d hd
  · rw [List.mem_singleton.mp hd]
    exact hc

variable [DecidableEq α]

/-- **The machine reads tokens off the front**, and nothing is left when it accepts. -/
theorem reads_lex : ∀ (text : List α) (m : Mode α), m.Valid g →
    ∃ rest, g.Reads (m.begun ++ text) (g.lex m text).1 rest ∧
      ((g.lex m text).2 = true → rest = [])
  | [], .pending, _ => ⟨[], .done, fun _ => rfl⟩
  | [], .plain tok, hm => by
    refine ⟨[], ?_, fun _ => rfl⟩
    exact .plain hm.1 hm.2 stops_nil .done
  | [], .quoted q tok, _ => ⟨_, .done, fun h => by cases h⟩
  | c :: cs, .pending, _ => by
    rw [lex]
    by_cases hb : g.blank c = true
    · obtain ⟨rest, h, hrest⟩ := reads_lex cs .pending trivial
      rw [if_pos hb]
      exact ⟨rest, .blank hb h, hrest⟩
    · rw [if_neg hb]
      by_cases hq : g.quote c = true
      · rw [if_pos hq]
        exact reads_lex cs (.quoted c []) ⟨hq, List.not_mem_nil⟩
      · rw [if_neg hq]
        refine reads_lex cs (.plain [c]) ⟨List.cons_ne_nil _ _, ?_⟩
        intro d hd
        rw [List.mem_singleton.mp hd]
        exact ⟨by simpa using hb, by simpa using hq⟩
  | c :: cs, .plain tok, hm => by
    rw [lex]
    by_cases hb : g.blank c = true
    · obtain ⟨rest, h, hrest⟩ := reads_lex cs .pending trivial
      rw [if_pos hb]
      exact ⟨rest, .plain hm.1 hm.2 (stops_cons hb) (.blank hb h), hrest⟩
    · rw [if_neg hb]
      by_cases hq : g.quote c = true
      · rw [if_pos hq]
        exact ⟨_, .done, fun h => by cases h⟩
      · rw [if_neg hq]
        have hc : g.Plain c := ⟨by simpa using hb, by simpa using hq⟩
        have h := reads_lex cs (.plain (tok ++ [c])) ⟨by simp, plain_snoc hm.2 hc⟩
        simpa only [Mode.begun, List.append_assoc, List.singleton_append] using h
  | c :: cs, .quoted q tok, hm => by
    rw [lex]
    by_cases hc : c = q
    · obtain ⟨rest, h, hrest⟩ := reads_lex cs .pending trivial
      rw [if_pos hc]
      subst hc
      exact ⟨rest, .quoted hm.1 hm.2 h, hrest⟩
    · rw [if_neg hc]
      have h := reads_lex cs (.quoted q (tok ++ [c]))
        ⟨hm.1, by simpa [hm.2] using Ne.symm hc⟩
      simpa only [Mode.begun, List.cons_append, List.append_assoc, List.nil_append] using h

/-! ## 3. What can be read -/

/-- In quotes everything but the quote goes into the token. -/
theorem lex_quoted {q : α} (cs : List α) {body tok : List α} (h : q ∉ body) :
    g.lex (.quoted q tok) (body ++ q :: cs) = attach (tok ++ body) (g.lex .pending cs) := by
  induction body generalizing tok with
  | nil => rw [List.nil_append, lex, if_pos rfl, List.append_nil]
  | cons c body ih =>
    rw [List.mem_cons, not_or] at h
    rw [List.cons_append, lex, if_neg (Ne.symm h.1), ih h.2, List.append_assoc,
      List.singleton_append]

/-- A token without quotes goes on to where it stops. -/
theorem lex_plain {cs body tok : List α} (hcs : g.Stops cs) (h : ∀ c ∈ body, g.Plain c) :
    g.lex (.plain tok) (body ++ cs) = attach (tok ++ body) (g.lex .pending cs) := by
  induction body generalizing tok with
  | nil =>
    rw [List.nil_append, List.append_nil]
    cases cs with
    | nil => rfl
    | cons c cs =>
      have hb : g.blank c = true := hcs c rfl
      rw [lex, lex, if_pos hb, if_pos hb]
  | cons c body ih =>
    have hc := h c (List.mem_cons_self ..)
    have hbody : ∀ d ∈ body, g.Plain d := fun d hd => h d (List.mem_cons_of_mem _ hd)
    rw [List.cons_append, lex, if_neg (by simp [hc.1]), if_neg (by simp [hc.2]), ih hbody,
      List.append_assoc, List.singleton_append]

/-- A token that begins a text is the first one the machine reads. -/
theorem lex_pending_plain {body cs : List α} (hne : body ≠ []) (hbody : ∀ c ∈ body, g.Plain c)
    (hcs : g.Stops cs) :
    g.lex .pending (body ++ cs) = attach body (g.lex .pending cs) := by
  cases body with
  | nil => exact absurd rfl hne
  | cons c body =>
    have hc := hbody c (List.mem_cons_self ..)
    rw [List.cons_append, lex, if_neg (by simp [hc.1]), if_neg (by simp [hc.2]),
      lex_plain hcs fun d hd => hbody d (List.mem_cons_of_mem _ hd)]
    rfl

theorem lex_pending_quoted {q : α} {body : List α} (cs : List α) (hq : g.quote q = true)
    (hbody : q ∉ body) :
    g.lex .pending (q :: (body ++ q :: cs)) = attach body (g.lex .pending cs) := by
  have hb : ¬ g.blank q = true := by
    intro h
    rw [g.disjoint q h] at hq
    cases hq
  rw [lex, if_neg hb, if_pos hq, lex_quoted cs hbody]
  rfl

/-- **What can be read off the front is the beginning of what the machine reads**, and all of
it when nothing is left. -/
theorem Reads.prefix_lex {text : List α} {ts : List (List α)} {rest : List α}
    (h : g.Reads text ts rest) :
    ts <+: (g.lex .pending text).1 ∧ (rest = [] → g.lex .pending text = (ts, true)) := by
  induction h with
  | done =>
    refine ⟨List.nil_prefix, ?_⟩
    rintro rfl
    rfl
  | blank hc _ ih =>
    rw [lex, if_pos hc]
    exact ih
  | quoted hq hbody _ ih =>
    rw [lex_pending_quoted _ hq hbody]
    refine ⟨(List.prefix_cons_inj _).mpr ih.1, ?_⟩
    intro hrest
    rw [ih.2 hrest]
    rfl
  | plain hne hbody hcs _ ih =>
    rw [lex_pending_plain hne hbody hcs]
    refine ⟨(List.prefix_cons_inj _).mpr ih.1, ?_⟩
    intro hrest
    rw [ih.2 hrest]
    rfl

/-- **The machine accepts exactly the texts that are a sequence of tokens**, and reads these
tokens. -/
theorem lex_iff {text : List α} {ts : List (List α)} :
    g.lex .pending text = (ts, true) ↔ g.Reads text ts [] := by
  constructor
  · intro h
    obtain ⟨rest, hreads, hrest⟩ := reads_lex (g := g) text .pending trivial
    rw [h] at hreads hrest
    obtain rfl := hrest rfl
    exact hreads
  · intro h
    exact h.prefix_lex.2 rfl

/-- The machine reads as many tokens as can be read. -/
theorem lex_length_le {text : List α} {n : ℕ} : (g.lex .pending text).1.length ≤ n ↔
    ∀ ts rest, g.Reads text ts rest → ts.length ≤ n := by
  constructor
  · intro h ts rest hreads
    exact Nat.le_trans hreads.prefix_lex.1.length_le h
  · intro h
    obtain ⟨rest, hreads, -⟩ := reads_lex (g := g) text .pending trivial
    exact h _ rest hreads

/-! ## 4. Writing tokens down -/

section Render

omit [DecidableEq α]

/-- The tokens in quotes, each with a blank behind it. -/
def render (quoteOf : List α → α) (b : α) (ts : List (List α)) : List α :=
  ts.flatMap fun tok => quoteOf tok :: (tok ++ [quoteOf tok, b])

/-- **What is written down is read back**, when no token has its quote in it. -/
theorem reads_render {quoteOf : List α → α} {b : α} {ts : List (List α)} (hb : g.blank b = true)
    (hts : ∀ tok ∈ ts, g.quote (quoteOf tok) = true ∧ quoteOf tok ∉ tok) :
    g.Reads (render quoteOf b ts) ts [] := by
  induction ts with
  | nil => exact .done
  | cons tok ts ih =>
    obtain ⟨⟨hquote, hbody⟩, hrest⟩ := List.forall_mem_cons.mp hts
    rw [render, List.flatMap_cons, List.cons_append, List.append_assoc]
    exact .quoted hquote hbody (.blank hb (ih hrest))

/-- What is read was in the text. -/
theorem Reads.mem_text {text : List α} {ts : List (List α)} {rest : List α}
    (h : g.Reads text ts rest) : ∀ tok ∈ ts, ∀ c ∈ tok, c ∈ text := by
  induction h with
  | done => exact fun _ htok => absurd htok List.not_mem_nil
  | blank _ _ ih => exact fun tok htok c hc => List.mem_cons_of_mem _ (ih tok htok c hc)
  | quoted _ _ _ ih =>
    refine List.forall_mem_cons.mpr ⟨fun c hc => ?_, fun tok htok c hc => ?_⟩
    · exact List.mem_cons_of_mem _ (List.mem_append_left _ hc)
    · exact List.mem_cons_of_mem _
        (List.mem_append_right _ (List.mem_cons_of_mem _ (ih tok htok c hc)))
  | plain _ _ _ _ ih =>
    refine List.forall_mem_cons.mpr ⟨fun c hc => ?_, fun tok htok c hc => ?_⟩
    · exact List.mem_append_left _ hc
    · exact List.mem_append_right _ (ih tok htok c hc)

/-- No token that is read has every quote in it. -/
theorem Reads.lacks_quote {q : α} (hq : g.quote q = true) {text : List α} {ts : List (List α)}
    {rest : List α} (h : g.Reads text ts rest) :
    ∀ tok ∈ ts, ∃ q, g.quote q = true ∧ q ∉ tok := by
  induction h with
  | done => exact fun _ htok => absurd htok List.not_mem_nil
  | blank _ _ ih => exact ih
  | quoted hquote hbody _ ih => exact List.forall_mem_cons.mpr ⟨⟨_, hquote, hbody⟩, ih⟩
  | plain _ hbody _ _ ih =>
    refine List.forall_mem_cons.mpr ⟨⟨q, hq, fun hmem => ?_⟩, ih⟩
    rw [(hbody q hmem).2] at hq
    cases hq

end Render

end Quoting

end PfsShell.Lib
