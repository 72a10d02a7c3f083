import TinyLisp.Proofs.Command.Listing
import TinyLisp.Proofs.Text.Quoted

/-!
# Listings of tokens

The tokens of a source are listed one to a line, each by its kind and its quoted text.  A
line tells both apart, because no kind is shown with a space in it and no two texts are
quoted alike (`Token.label_injective`).  No token is shown with a newline in it, so the
lines of a listing are the tokens (`Command.lines_lexListing`).

Hence sources whose listings are the same have the same tokens, by kind and by text
(`tokens_of_lex_output`).  Whether a string literal is cut short does not show.
-/

namespace TinyLisp

namespace Token

/-! ### How a token is shown -/

lemma Kind.render_injective : Function.Injective Kind.render := by
  intro k l
  cases k <;> cases l <;> decide

lemma Kind.space_not_mem_render (k : Kind) : ' ' ∉ k.render.toList := by
  cases k <;> decide

lemma Kind.newline_not_mem_render (k : Kind) : '\n' ∉ k.render.toList := by
  cases k <;> decide

/-- How a token of the given kind and text is shown. -/
def label (p : Kind × String) : String :=
  p.1.render ++ " " ++ Quoted.quote p.2

lemma render_eq_label (t : Token) : t.render = label (t.kind, t.text) := rfl

lemma toList_label (p : Kind × String) :
    (label p).toList = p.1.render.toList ++ ' ' :: (Quoted.quote p.2).toList := by
  simp [label]

/-- Tokens that are shown alike have the same kind and the same text. -/
theorem label_injective : Function.Injective label := by
  -- the first space ends the kind
  have hkind : ∀ p : Kind × String, (label p).toList.takeWhile (· ≠ ' ') = p.1.render.toList := by
    intro p
    have hrun : ∀ c ∈ p.1.render.toList, decide (c ≠ ' ') = true :=
      fun c hc => decide_eq_true (ne_of_mem_of_not_mem hc (Kind.space_not_mem_render p.1))
    rw [toList_label, List.takeWhile_append_of_pos hrun]
    simp
  intro p q h
  have hkinds : p.1.render.toList = q.1.render.toList := by rw [← hkind p, h, hkind q]
  have htexts := congrArg String.toList h
  rw [toList_label, toList_label, hkinds, List.append_cancel_left_eq, List.cons.injEq] at htexts
  apply Prod.ext
  · exact Kind.render_injective (String.toList_inj.mp hkinds)
  · exact Quoted.quote_injective (String.toList_inj.mp htexts.2)

/-- A token is shown on a single line. -/
lemma newline_not_mem_label (p : Kind × String) : '\n' ∉ (label p).toList := by
  rw [toList_label]
  simp [Kind.newline_not_mem_render, Quoted.newline_not_mem_quote]

lemma label_ne_empty (p : Kind × String) : label p ≠ "" := by
  intro h
  have hchars := congrArg String.toList h
  simp [toList_label] at hchars

end Token

namespace Command

/-! ### The lines of a listing -/

/-- The lines of a text: what stands between its newlines. -/
def lines (text : String) : List String :=
  (text.split '\n').toList.map (·.copy)

/-- The lines of a listing of tokens are the tokens as they are shown.  Without tokens there is
a single empty line. -/
lemma lines_lexListing (s : String) :
    lines (lexListing s) =
      if (Source.ofString s).tokens.1 = [] then [""]
      else (Source.ofString s).tokens.1.map Token.render := by
  have hsingle : ∀ line ∈ (Source.ofString s).tokens.1.map Token.render, '\n' ∉ line.toList := by
    intro line hline
    obtain ⟨t, -, rfl⟩ := List.mem_map.mp hline
    rw [Token.render_eq_label]
    exact Token.newline_not_mem_label _
  have hnewline : "\n" = String.singleton '\n' := by decide
  rw [lines, lexListing, listing, hnewline, String.toList_split_intercalate hsingle]
  simp only [List.map_eq_nil_iff]

/-- Sources with the same listing have the same tokens, by kind and by text. -/
lemma tokens_eq_of_lexListing_eq {s s' : String} (h : lexListing s = lexListing s') :
    (Source.ofString s).tokens.1.map (fun t => (t.kind, t.text)) =
      (Source.ofString s').tokens.1.map fun t => (t.kind, t.text) := by
  have hlines := congrArg lines h
  have hrender : ∀ ts : List Token,
      ts.map Token.render = (ts.map fun t => (t.kind, t.text)).map Token.label := by
    intro ts
    rw [List.map_map]
    rfl
  have hempty : ∀ ts : List Token, [""] ≠ ts.map Token.render := by
    intro ts hts
    have hmem : "" ∈ ts.map Token.render := hts ▸ List.mem_cons_self
    obtain ⟨t, -, ht⟩ := List.mem_map.mp hmem
    rw [Token.render_eq_label] at ht
    exact Token.label_ne_empty _ ht
  rw [lines_lexListing, lines_lexListing] at hlines
  split_ifs at hlines with hs hs' hs'
  · rw [hs, hs']
  · exact absurd hlines (hempty _)
  · exact absurd hlines.symm (hempty _)
  · rw [hrender, hrender] at hlines
    exact List.map_injective_iff.mpr Token.label_injective hlines

/-! ### The command that lists tokens -/

/-- Listing the tokens of a source prints one line for each. -/
lemma execute_lex {s : String} {content : Content} (hcontent : content.text = .ok s)
    (file : Option String) :
    (Command.lex file).execute (.ok content) = (0, Console.say {} (lexListing s)) := by
  simp [Command.execute, hcontent]

/-- What is printed determines the listing. -/
lemma eq_of_written_say_eq {text text' : String}
    (h : (Console.say {} text).out.written = (Console.say {} text').out.written) :
    text = text' := by
  rw [written_say, written_say] at h
  have hdecoded := congrArg Utf8.strict? h
  rw [Utf8.strict?_encode, Utf8.strict?_encode, Option.some.injEq] at hdecoded
  exact (String.append_left_inj "\n").mp hdecoded

end Command

/-- Listing the tokens of a source prints a text and a newline.  The lines of the text are the
tokens of the source, in order and as they are shown, or a single empty line if there are none.
How a token is shown tells its kind and its text.  So another source for which the same is
printed has tokens of the same kinds and texts. -/
theorem tokens_of_lex_output {content : Content} {s : String} (h : content.text = .ok s)
    (file : Option String) :
    (∃ text console, (Command.lex file).execute (.ok content) = (0, console) ∧
        console.out.written = Utf8.encode (text ++ "\n") ∧
        Command.lines text =
          if (Source.ofString s).tokens.1 = [] then [""]
          else (Source.ofString s).tokens.1.map Token.render) ∧
      (∀ t u : Token, t.render = u.render ↔ t.kind = u.kind ∧ t.text = u.text) ∧
      ∀ content' s' file', content'.text = .ok s' →
        ((Command.lex file).execute (.ok content)).2.out.written =
          ((Command.lex file').execute (.ok content')).2.out.written →
        (Source.ofString s).tokens.1.map (fun t => (t.kind, t.text)) =
          (Source.ofString s').tokens.1.map fun t => (t.kind, t.text) := by
  refine ⟨⟨Command.lexListing s, _, Command.execute_lex h file, written_say _,
    Command.lines_lexListing s⟩, fun t u => ?_, fun content' s' file' h' hsame => ?_⟩
  · rw [Token.render_eq_label, Token.render_eq_label, Token.label_injective.eq_iff, Prod.mk.injEq]
  · rw [Command.execute_lex h, Command.execute_lex h'] at hsame
    exact Command.tokens_eq_of_lexListing_eq (Command.eq_of_written_say_eq hsame)

/-- A literal that holds a newline and a combining accent is listed on one line.  The literal
that goes on with an escaped quote and is cut short is listed just like it, although the two
tokens differ. -/
theorem tokens_of_lex_output_truncated :
    (∃ text console,
        (Command.lex none).execute (.ok (.file (Utf8.encode "\"\n\u0301\""))) = (0, console) ∧
        console.out.written = Utf8.encode (text ++ "\n") ∧
        Command.lines text = ["<string> \"\\\"\\n\\u\x7b301\x7d\\\"\""]) ∧
      (Source.ofString "\"\n\u0301\"").tokens.1.map (fun t => (t.kind, t.text)) =
        ((Source.ofString "\"\n\u0301\\\"").tokens.1.map fun t => (t.kind, t.text)) ∧
      (Source.ofString "\"\n\u0301\"").tokens.1 ≠ (Source.ofString "\"\n\u0301\\\"").tokens.1 := by
  have htext : ∀ s, (Content.file (Utf8.encode s)).text = .ok s := by
    intro s
    simp [Content.text, Utf8.strict?_encode]
  obtain ⟨⟨text, console, hexecute, hwritten, hlines⟩, -, hsame⟩ :=
    tokens_of_lex_output (htext "\"\n\u0301\"") none
  have hline : (if (Source.ofString "\"\n\u0301\"").tokens.1 = [] then [""]
      else (Source.ofString "\"\n\u0301\"").tokens.1.map Token.render) =
      ["<string> \"\\\"\\n\\u\x7b301\x7d\\\"\""] := by
    decide +kernel
  have hlisting : Command.lexListing "\"\n\u0301\"" = Command.lexListing "\"\n\u0301\\\"" := by
    decide +kernel
  refine ⟨⟨text, console, hexecute, hwritten, hlines.trans hline⟩, ?_, by decide +kernel⟩
  apply hsame _ _ none (htext "\"\n\u0301\\\"")
  rw [Command.execute_lex (htext _), Command.execute_lex (htext _), hlisting]

end TinyLisp
