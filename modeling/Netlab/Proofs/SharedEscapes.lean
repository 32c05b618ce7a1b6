import Netlab.Proofs.ModuleLines
import Netlab.Proofs.Readings

namespace Netlab

theorem Position.afterAll_line {cs : List Char} (h : '\n' ∉ cs) (p : Position) :
    p.afterAll cs = ⟨p.line, p.column + cs.length⟩ := by
  induction cs generalizing p with
  | nil => rfl
  | cons c cs ih =>
    obtain ⟨hc, hcs⟩ := not_or.mp (List.mem_cons.not.mp h)
    rw [afterAll_cons, ih hcs, after, if_neg (Ne.symm hc), List.length_cons]
    simp only [Nat.add_assoc, Nat.add_comm 1]

namespace Cursor

variable {quote : Char} {cs rest text : List Char}

theorem quoted_unknown (hq : quote = '"' ∨ quote = '\'') {e : Char} (he : unescape? e = none)
    (hn : e ≠ '\n') (opening p : Position) :
    quoted quote opening ('\\' :: e :: rest) p =
      (.error ⟨p.after '\\', .unknownEscape e⟩, ⟨rest, (p.after '\\').after e⟩) := by
  have hslash : '\\' ≠ quote := by rcases hq with rfl | rfl <;> decide
  rw [quoted.eq_def]
  simp [hslash, he, Position.after, hn]

theorem tokens_unknown (hq : quote = '"' ∨ quote = '\'') (h : Quoted quote cs text) {e : Char}
    (he : unescape? e = none) (hn : e ≠ '\n') (rest : List Char) (p : Position) :
    tokens ⟨quote :: (cs ++ ['\\']) ++ e :: rest, p⟩ =
      .error ⟨p.afterAll (quote :: (cs ++ ['\\'])), .unknownEscape e⟩ := by
  have hsolid : Solid (quote :: (cs ++ '\\' :: e :: rest)) := by
    rintro _ ⟨⟩
    rcases hq with rfl | rfl <;> decide
  have hlexeme : lexeme p quote (cs ++ '\\' :: e :: rest) =
      (.error ⟨p.afterAll (quote :: (cs ++ ['\\'])), .unknownEscape e⟩,
        ⟨rest, p.afterAll (quote :: (cs ++ ['\\', e]))⟩) := by
    rw [lexeme_quote hq, quoted_append hq h, quoted_unknown hq he hn]
    simp only [Position.afterAll_cons, Position.afterAll_append, Position.afterAll_nil]
    rfl
  rw [List.cons_append, List.append_assoc, List.singleton_append]
  apply tokens_of_error
  rw [next_solid hsolid, hlexeme]
  rfl

end Cursor

namespace Python

/-- The characters that are not written by their codes: of the control characters only those with a
letter of their own. -/
def Shared (c : Char) : Prop :=
  (c.toNat < 0x20 → c = '\t' ∨ c = '\n' ∨ c = '\r') ∧ c.toNat ≠ 0x7F

instance : DecidablePred Shared := fun _ => inferInstanceAs (Decidable (_ ∧ _))

theorem escape_of_not_shared {c : Char} (h : ¬Shared c) :
    ∃ digits, escape c = '\\' :: 'x' :: digits := by
  unfold escape
  split_ifs with hb hq hn hr ht hc
  iterate 5
    · subst c
      exact absurd (by decide) h
  · exact ⟨_, rfl⟩
  · exact absurd ⟨fun hlt => absurd (.inl hlt) hc, fun heq => hc (.inr heq)⟩ h

theorem quoted_escape_append {c : Char} (hc : Shared c) {cs text : List Char}
    (h : Quoted '"' cs text) : Quoted '"' (escape c ++ cs) (c :: text) := by
  unfold escape
  split_ifs with hb hq hn hr ht hcode
  iterate 5
    · subst c
      exact .escape (by decide) h
  · obtain ⟨hletter, hdelete⟩ := hc
    rcases hcode with hlt | heq
    · rcases hletter hlt with rfl | rfl | rfl <;> contradiction
    · exact absurd heq hdelete
  · exact .plain hq hb hn h

theorem quoted_flatMap_escape {text : List Char} (h : ∀ c ∈ text, Shared c) :
    Quoted '"' (text.flatMap escape) text := by
  induction text with
  | nil => exact .nil
  | cons c text ih =>
    obtain ⟨hc, htext⟩ := List.forall_mem_cons.mp h
    exact quoted_escape_append hc (ih htext)

theorem newline_not_mem_quote (s : String) : '\n' ∉ (quote s).toList := by
  intro hn
  exact absurd (plain_quote s '\n' hn).1 (by decide)

/-- A text in front of and behind the first character that is written by its code. -/
structure FirstCoded (s : String) (front : List Char) (c : Char) (back : List Char) : Prop where
  text : s.toList = front ++ c :: back
  shared : ∀ d ∈ front, Shared d
  coded : ¬Shared c

theorem exists_firstCoded {s : String} (h : ¬∀ c ∈ s.toList, Shared c) :
    ∃ front c back, FirstCoded s front c back := by
  cases hf : s.toList.find? (fun c => ¬Shared c) with
  | none =>
    refine absurd (fun c hc => ?_) h
    simpa using List.find?_eq_none.mp hf c hc
  | some c =>
    obtain ⟨hc, front, back, htext, hfront⟩ := List.find?_eq_some_iff_append.mp hf
    refine ⟨front, c, back, htext, fun d hd => ?_, of_decide_eq_true hc⟩
    simpa using hfront d hd

theorem FirstCoded.toList_quote {s : String} {front back : List Char} {c : Char}
    (h : FirstCoded s front c back) {digits : List Char} (hc : escape c = '\\' :: 'x' :: digits) :
    (quote s).toList =
      '"' :: (front.flatMap escape ++ ['\\']) ++ 'x' :: (digits ++ (back.flatMap escape ++ ['"'])) := by
  rw [quote, String.toList_ofList, h.text]
  simp [hc]

theorem ofText_quote_of_shared {s : String} (h : ∀ c ∈ s.toList, Shared c) :
    Token.ofText (quote s) =
      .ok [⟨⟨.string, s⟩, .start⟩, ⟨⟨.eof, ""⟩, Position.start.afterAll (quote s).toList⟩] := by
  have hspelling : Spelling (quote s).toList ⟨.string, s⟩ := by
    rw [quote, String.toList_ofList]
    have hs := Spelling.string (.inl rfl) (quoted_flatMap_escape h)
    rwa [String.ofList_toList] at hs
  have hlexed := Lexed.token (p := .start) .nil hspelling (Cursor.apart_of_kind (by simp) (by simp))
    (.done .nil)
  apply Token.ofText_eq_ok.mpr
  simpa using hlexed

theorem FirstCoded.ofText_quote_eq_error {s : String} {front back : List Char} {c : Char}
    (h : FirstCoded s front c back) :
    Token.ofText (quote s) =
      .error ⟨Position.start.afterAll ('"' :: (front.flatMap escape ++ ['\\'])), .unknownEscape 'x'⟩ := by
  obtain ⟨digits, hc⟩ := escape_of_not_shared h.coded
  rw [Token.ofText, Cursor.ofText, h.toList_quote hc]
  exact Cursor.tokens_unknown (.inl rfl) (quoted_flatMap_escape h.shared) (by decide) (by decide) _ .start

/-- A literal without codes is one string token of a description, and it is the text that has been
written. A literal with codes is refused at the letter `x` of the first of them. -/
theorem ofText_quote (s : String) :
    ((∀ c ∈ s.toList, Shared c) →
        Token.ofText (quote s) =
          .ok [⟨⟨.string, s⟩, ⟨1, 1⟩⟩, ⟨⟨.eof, ""⟩, ⟨1, 1 + (quote s).length⟩⟩]) ∧
      ((¬∀ c ∈ s.toList, Shared c) →
        ∃ front c back digits read, FirstCoded s front c back ∧
          escape c = '\\' :: 'x' :: digits ∧ read = '"' :: (front.flatMap escape ++ ['\\']) ∧
          (quote s).toList = read ++ 'x' :: (digits ++ (back.flatMap escape ++ ['"'])) ∧
          Token.ofText (quote s) = .error ⟨⟨1, 1 + read.length⟩, .unknownEscape 'x'⟩) ∧
      (LexFault.unknownEscape 'x').message = "unknown escape sequence '\\x'" := by
  have hline := newline_not_mem_quote s
  refine ⟨fun h => ?_, fun h => ?_, by decide⟩
  · rw [ofText_quote_of_shared h, Position.afterAll_line hline, String.length_toList]
    rfl
  · obtain ⟨front, c, back, hfirst⟩ := exists_firstCoded h
    obtain ⟨digits, hc⟩ := escape_of_not_shared hfirst.coded
    have hquote := hfirst.toList_quote hc
    have hread : '\n' ∉ '"' :: (front.flatMap escape ++ ['\\']) :=
      fun hn => hline (hquote ▸ List.mem_append_left _ hn)
    refine ⟨front, c, back, digits, _, hfirst, hc, rfl, hquote, ?_⟩
    rw [hfirst.ofText_quote_eq_error, Position.afterAll_line hread]
    rfl

theorem ofText_quote_backslashes :
    (∀ c ∈ "\\\"\r\\".toList, Shared c) ∧ quote "\\\"\r\\" = "\"\\\\\\\"\\r\\\\\"" ∧
      Token.ofText "\"\\\\\\\"\\r\\\\\"" =
        .ok [⟨⟨.string, "\\\"\r\\"⟩, ⟨1, 1⟩⟩, ⟨⟨.eof, ""⟩, ⟨1, 11⟩⟩] ∧
      (¬∀ c ∈ "\\\x7f1".toList, Shared c) ∧ quote "\\\x7f1" = "\"\\\\\\x7f1\"" ∧
      Token.ofText "\"\\\\\\x7f1\"" = .error ⟨⟨1, 5⟩, .unknownEscape 'x'⟩ := by
  have hshared : ∀ c ∈ "\\\"\r\\".toList, Shared c := by
    have hall : "\\\"\r\\".toList.all (fun c => Shared c) = true := by decide +kernel
    simpa using hall
  have hcoded : ¬∀ c ∈ "\\\x7f1".toList, Shared c :=
    fun h => absurd (h '\x7f' (by decide)) (by decide)
  have hquote : quote "\\\"\r\\" = "\"\\\\\\\"\\r\\\\\"" := by decide +kernel
  have hquote' : quote "\\\x7f1" = "\"\\\\\\x7f1\"" := by decide +kernel
  have hread := (ofText_quote _).1 hshared
  obtain ⟨front, c, back, _, _, hfirst, -, rfl, -, hfault⟩ := (ofText_quote _).2.1 hcoded
  have hfront : front = ['\\'] := by
    have htext : ['\\', '\x7f', '1'] = front ++ c :: back := hfirst.text
    rcases front with _ | ⟨a, _ | ⟨b, front⟩⟩
    · cases htext
      exact absurd (by decide) hfirst.coded
    · cases htext
      rfl
    · obtain ⟨-, rfl, -⟩ : '\\' = a ∧ '\x7f' = b ∧ ['1'] = front ++ c :: back := by simpa using htext
      exact absurd (hfirst.shared '\x7f' (by simp)) (by decide)
  rw [hquote] at hread
  rw [hquote', hfront] at hfault
  exact ⟨hshared, hquote, hread, hcoded, hquote', hfault⟩

end Python

end Netlab
