import TinyLisp.Command.Program
import TinyLisp.Proofs.Expr.Script
import TinyLisp.Proofs.Text.Encoding

/-!
# Listings of expressions

The expressions of a source are listed one to a line.  Such a listing is a source again,
a layout of the renderings with newlines between them (`isLayoutOf_listing`), and it is
written as bytes from which the same text is decoded.

A text that would need escaping is not rendered so that it could be read back.  Without
such texts a listing is read back as the expressions it lists, and listing it again makes
no difference.  There is one exception: a zero that has a minus sign of its own behind the
name `-` is listed as `0`, and then the name is read as its sign (`parseScript_listing_iff`).
-/

namespace TinyLisp

open TinyLisp.Expr

/-- The expressions of a script are plain if their texts are. -/
lemma plain_of_parseScript {s : String} {es : List Expr} (h : parseScript s = .ok es)
    (htexts : ∀ t, .text t ∈ (list es).nodes → '\x22' ∉ t.toList ∧ '\\' ∉ t.toList) :
    ∀ e ∈ es, e.Plain := by
  have hplain : (list es).Plain := ⟨(isLegible_of_parseScript h).1.names, htexts⟩
  exact fun e he => hplain.of_mem_items he

/-! ### A listing is a layout -/

/-- The renderings in a listing are separated by newlines, and one more follows. -/
lemma respaced_listing (es : List Expr) (h : ∀ e ∈ es, e.Plain) :
    Respaced false (itemChars es) ((Command.listing (es.map render)).toList ++ ['\n']) := by
  have hend : Respaced false [] ['\n'] := .nil (by simp [blanks])
  induction es with
  | nil => exact hend
  | cons e es ih =>
    have he := h e List.mem_cons_self
    cases es with
    | nil => simpa [Command.listing, render, itemChars] using respaced_chars e he hend
    | cons x xs =>
      have hlines := ih fun y hy => h y (List.mem_cons_of_mem e hy)
      have hbreak : Respaced false (' ' :: itemChars (x :: xs))
          (['\n'] ++ ((Command.listing ((x :: xs).map render)).toList ++ ['\n'])) :=
        .space (by simp) (by simp [blanks]) hlines
      have hall := respaced_chars e he hbreak
      rw [itemChars]
      · simpa [Command.listing, render] using hall
      · simp

/-- A listing is a layout of the renderings. -/
lemma isLayoutOf_listing {es : List Expr} (h : ∀ e ∈ es, e.Plain) :
    IsLayoutOf (Command.listing (es.map render) ++ "\n") (" ".intercalate (es.map render)) := by
  refine ⟨[], (Command.listing (es.map render)).toList ++ ['\n'], ?_, by simp, ?_⟩
  · simp
  · rw [toList_intercalate_render]
    exact respaced_listing es h

/-- What is read off the listing of a script: its expressions, but for the names `-` before
a zero. -/
lemma parseScript_listing {s : String} {es : List Expr} (h : parseScript s = .ok es)
    (htexts : ∀ t, .text t ∈ (list es).nodes → '\x22' ∉ t.toList ∧ '\\' ∉ t.toList) :
    parseScript (Command.listing (es.map render) ++ "\n") = .ok (absorbAll es) := by
  obtain ⟨hlegible, hlevels⟩ := isLegible_of_parseScript h
  have hplain := plain_of_parseScript h htexts
  exact parseScript_layout_absorbAll hplain hlegible.signs hlevels (isLayoutOf_listing hplain)

/-! ### The command that lists expressions -/

/-- Listing the expressions of a source prints one line for each. -/
lemma execute_parse {s : String} {es : List Expr} (h : parseScript s = .ok es)
    {content : Content} (hcontent : content.text = .ok s) (file : Option String) :
    (Command.parse file).execute (.ok content) =
      (0, Console.say {} (Command.listing (es.map render))) := by
  simp [Command.execute, hcontent, Command.parseListing, h, Except.map]

/-- What is printed is the text and a newline. -/
lemma written_say (text : String) :
    (Console.say {} text).out.written = Utf8.encode (text ++ "\n") := by
  simp [Console.say, Sink.write]

/-- The listing of a source whose texts need no escaping is read back as the expressions
that it lists, exactly if nowhere among them a zero follows the name `-`.  If so, listing
what has been listed prints it again. -/
theorem parseScript_listing_iff {s : String} {es : List Expr} (h : parseScript s = .ok es)
    (htexts : ∀ t, .text t ∈ (list es).nodes → '\x22' ∉ t.toList ∧ '\\' ∉ t.toList) :
    (parseScript (Command.listing (es.map render) ++ "\n") = .ok es ↔
      ∀ x ∈ (list es).nodes, ¬[.atom "-", .number 0] <:+: x.items) ∧
    ((∀ x ∈ (list es).nodes, ¬[.atom "-", .number 0] <:+: x.items) →
      ∀ file content, content.text = .ok s → ∃ console,
        (Command.parse file).execute (.ok content) = (0, console) ∧
        console.out.written = Utf8.encode (Command.listing (es.map render) ++ "\n") ∧
        ∀ file', (Command.parse file').execute (.ok (.file console.out.written)) =
          (0, console)) := by
  have hback := parseScript_listing h htexts
  constructor
  · rw [hback, Except.ok.injEq]
    exact absorbAll_eq_self_iff es
  · intro hapart file content hcontent
    rw [(absorbAll_eq_self_iff es).mpr hapart] at hback
    refine ⟨_, execute_parse h hcontent file, written_say _, fun file' => ?_⟩
    refine execute_parse hback ?_ file'
    rw [written_say, Content.text, Utf8.strict?_encode]

/-- A script of odd spellings: a name `-` before a negative number, a run of quotation marks,
a name with a carriage return in it, an underscore, and a literal that is cut short. -/
theorem parseScript_listing_iff_spellings :
    parseScript "- -7 ''(x\r (- \"0\")\t1_0)\n\"a b" =
        .ok [.atom "-", .number (-7), .quoted [.atom "x\r", .list [.atom "-", .text "0"],
          .number 10], .text "a b"] ∧
      parseScript (Command.listing (List.map render [.atom "-", .number (-7), .quoted [.atom "x\r",
          .list [.atom "-", .text "0"], .number 10], .text "a b"]) ++ "\n") =
        .ok [.atom "-", .number (-7), .quoted [.atom "x\r", .list [.atom "-", .text "0"],
          .number 10], .text "a b"] := by
  have h : parseScript "- -7 ''(x\r (- \"0\")\t1_0)\n\"a b" =
      .ok [.atom "-", .number (-7), .quoted [.atom "x\r", .list [.atom "-", .text "0"],
        .number 10], .text "a b"] := by
    decide +kernel
  refine ⟨h, (parseScript_listing_iff h ?_).1.mpr ?_⟩
  · simp [nodes, nodesAll]
  · decide

/-- The name `-` before a zero is lost: the two expressions of `- -0`, none of which is a
text, are listed in two lines, and these are read as one number. -/
theorem parseScript_listing_minus_zero :
    parseScript "- -0" = .ok [.atom "-", .number 0] ∧
      (∀ t, .text t ∉ (list [.atom "-", .number 0]).nodes) ∧
      parseScript (Command.listing (List.map render [.atom "-", .number 0]) ++ "\n") =
        .ok [.number 0] ∧
      (Command.parse none).execute (.ok (.file (Utf8.encode "- -0"))) =
        (0, Console.say {} "-\n0") ∧
      (Command.parse none).execute (.ok (.file (Utf8.encode "-\n0\n"))) =
        (0, Console.say {} "0") := by
  refine ⟨by decide +kernel, fun t => ?_, by decide +kernel, by decide +kernel, by decide +kernel⟩
  simp [nodes, nodesAll]

end TinyLisp
