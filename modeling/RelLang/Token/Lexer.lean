import RelLang.Token

/-!
# Cutting a text into tokens

A text is cut from left to right, and each token is as long as it can be. The
second character of an opening (`//`, `--`, `/*`, `"`, `$(`) decides what the token
is; a word is a keyword if it is spelled like one. A character that starts no token
is an invalid token by itself, and so is a construct that is never closed, with all
the text it claims.

The cut never fails: `text_scan` says that a token and what is left are the text.
-/

namespace RelLang.Lexer

/-- Blanks between tokens. -/
def isSpace (c : Char) : Bool :=
  c == ' ' || c == '\t' || c == '\r' || c == '\n' || c == '\x0c'

def isDigit (c : Char) : Bool := '0' ≤ c && c ≤ '9'

/-- Starts a word: an ASCII letter or an underscore. -/
def isWordStart (c : Char) : Bool :=
  ('a' ≤ c && c ≤ 'z') || ('A' ≤ c && c ≤ 'Z') || c == '_'

/-- Continues a word. -/
def isWordRest (c : Char) : Bool := isWordStart c || isDigit c

/-- Does not end a line. -/
def inLine (c : Char) : Bool := c != '\n'

/-- What a scan has read: the kind of the token, its characters, and the characters behind it. -/
structure Lexeme where
  kind : TokenKind
  text : List Char
  rest : List Char
  deriving DecidableEq, Repr

/-- The run of characters that pass a test, and the characters behind it. -/
def Lexeme.run (kind : TokenKind) (front : List Char) (test : Char → Bool) (cs : List Char) :
    Lexeme :=
  ⟨kind, front ++ cs.takeWhile test, cs.dropWhile test⟩

/-- The text through the first `*/`, and the text behind it. -/
def untilCommentEnd : List Char → Option (List Char × List Char)
  | [] => none
  | '*' :: '/' :: rest => some (['*', '/'], rest)
  | c :: cs => (untilCommentEnd cs).map fun (text, rest) => (c :: text, rest)

/-- The text through the parenthesis that closes the given number of open ones, and the text
behind it. -/
def untilBalanced : Nat → List Char → Option (List Char × List Char)
  | _, [] => none
  | depth, c :: cs =>
    if c = '(' then (untilBalanced (depth + 1) cs).map fun (text, rest) => (c :: text, rest)
    else if c = ')' then
      if depth ≤ 1 then some ([c], cs)
      else (untilBalanced (depth - 1) cs).map fun (text, rest) => (c :: text, rest)
    else (untilBalanced depth cs).map fun (text, rest) => (c :: text, rest)

/-- The lexeme of a construct with a closing end; invalid through the end of the text if the
end is missing. -/
def Lexeme.closed (kind : TokenKind) (front cs : List Char) :
    Option (List Char × List Char) → Lexeme
  | some (text, rest) => ⟨kind, front ++ text, rest⟩
  | none => ⟨.invalid, front ++ cs, []⟩

/-- The quote that ends a path has to stand on the same line. -/
def scanPath (front cs : List Char) : Lexeme :=
  let text := cs.takeWhile fun c => c != '\x22' && c != '\n'
  match cs.dropWhile fun c => c != '\x22' && c != '\n' with
  | '\x22' :: rest => ⟨.filePath, front ++ text ++ ['\x22'], rest⟩
  | rest => ⟨.invalid, front ++ text, rest⟩

/-- A word: a keyword if it is spelled like one. -/
def scanWord (c : Char) (cs : List Char) : Lexeme :=
  let word := c :: cs.takeWhile isWordRest
  let kind := match Keyword.ofSpelling? (String.ofList word) with
    | some k => .keyword k
    | none => .ident
  ⟨kind, word, cs.dropWhile isWordRest⟩

/-- A punctuation mark, or one invalid character. -/
def scanPunct (c : Char) (cs : List Char) : Lexeme :=
  match Punct.longest? (c :: cs) with
  | some (text, p) => ⟨.punct p, text, (c :: cs).drop text.length⟩
  | none => ⟨.invalid, [c], cs⟩

/-- The first token of a text that starts with `c`. -/
def scan (c : Char) (cs : List Char) : Lexeme :=
  if isSpace c then .run .whitespace [c] isSpace cs
  else if isWordStart c then scanWord c cs
  else if isDigit c then .run .number [c] isDigit cs
  else match c, cs with
    | '/', '/' :: cs => .run .lineComment ['/', '/'] inLine cs
    | '-', '-' :: cs => .run .lineComment ['-', '-'] inLine cs
    | '/', '*' :: cs => .closed .blockComment ['/', '*'] cs (untilCommentEnd cs)
    | '#', 'l' :: 'a' :: 'n' :: 'g' :: ' ' :: cs =>
      .run .langLine ['#', 'l', 'a', 'n', 'g', ' '] inLine cs
    | '#', 'l' :: 'a' :: 'n' :: 'g' :: '\t' :: cs =>
      .run .langLine ['#', 'l', 'a', 'n', 'g', '\t'] inLine cs
    | '\x22', cs => scanPath ['\x22'] cs
    | '\x60', d :: cs =>
      if isWordStart d then .run .atomName ['\x60', d] isWordRest cs
      else ⟨.invalid, ['\x60'], d :: cs⟩
    | '$', '(' :: cs => .closed .sexpr ['$', '('] cs (untilBalanced 1 cs)
    | c, cs => scanPunct c cs

/-! ### Nothing is lost -/

theorem text_run (kind : TokenKind) (front : List Char) (test : Char → Bool) (cs : List Char) :
    (Lexeme.run kind front test cs).text ++ (Lexeme.run kind front test cs).rest
      = front ++ cs := by
  simp [Lexeme.run]

theorem text_untilCommentEnd {cs text rest : List Char}
    (h : untilCommentEnd cs = some (text, rest)) : text ++ rest = cs := by
  fun_induction untilCommentEnd cs generalizing text with
  | case1 => simp at h
  | case2 r =>
    obtain ⟨rfl, rfl⟩ : ['*', '/'] = text ∧ r = rest := by simpa using h
    rfl
  | case3 c cs hne ih =>
    obtain ⟨⟨t, r⟩, ht, he⟩ := Option.map_eq_some_iff.1 h
    obtain ⟨rfl, rfl⟩ := Prod.mk.injEq .. ▸ he
    simp [ih ht]

theorem text_untilBalanced {depth : Nat} {cs text rest : List Char}
    (h : untilBalanced depth cs = some (text, rest)) : text ++ rest = cs := by
  fun_induction untilBalanced depth cs generalizing text with
  | case1 => simp at h
  | case3 =>
    obtain ⟨rfl, rfl⟩ := Prod.mk.injEq .. ▸ Option.some.inj h
    rfl
  | case2 _ _ ih | case4 _ _ _ _ ih | case5 _ _ _ _ _ ih =>
    obtain ⟨⟨t, r⟩, ht, he⟩ := Option.map_eq_some_iff.1 h
    obtain ⟨rfl, rfl⟩ := Prod.mk.injEq .. ▸ he
    simp [ih ht]

theorem text_closed (kind : TokenKind) (front cs : List Char)
    (found : Option (List Char × List Char))
    (h : ∀ text rest, found = some (text, rest) → text ++ rest = cs) :
    (Lexeme.closed kind front cs found).text ++ (Lexeme.closed kind front cs found).rest
      = front ++ cs := by
  match found with
  | none => simp [Lexeme.closed]
  | some (text, rest) => simp [Lexeme.closed, h text rest rfl]

theorem text_scanPath (front cs : List Char) :
    (scanPath front cs).text ++ (scanPath front cs).rest = front ++ cs := by
  have h := List.takeWhile_append_dropWhile (p := fun c => c != '\x22' && c != '\n') (l := cs)
  unfold scanPath
  split
  · next rest hr =>
    rw [hr] at h
    show front ++ _ ++ ['\x22'] ++ rest = front ++ cs
    rw [List.append_assoc, List.append_assoc]
    exact congrArg (front ++ ·) h
  · exact (List.append_assoc ..).trans (congrArg (front ++ ·) h)

theorem text_scanWord (c : Char) (cs : List Char) :
    (scanWord c cs).text ++ (scanWord c cs).rest = c :: cs := by
  simp [scanWord]

theorem text_scanPunct (c : Char) (cs : List Char) :
    (scanPunct c cs).text ++ (scanPunct c cs).rest = c :: cs := by
  unfold scanPunct
  split
  · next text p h =>
    obtain ⟨rest, hr⟩ := (Punct.longest?_eq_some h).2
    simp [← hr]
  · rfl

/-- A token and what is left are the text. -/
theorem text_scan (c : Char) (cs : List Char) :
    (scan c cs).text ++ (scan c cs).rest = c :: cs := by
  unfold scan
  split
  · exact text_run ..
  split
  · exact text_scanWord ..
  split
  · exact text_run ..
  split
  · exact text_run ..
  · exact text_run ..
  · exact text_closed _ _ _ _ fun _ _ => text_untilCommentEnd
  · exact text_run ..
  · exact text_run ..
  · exact text_scanPath ..
  · split
    · exact text_run ..
    · rfl
  · exact text_closed _ _ _ _ fun _ _ => text_untilBalanced
  · exact text_scanPunct ..

/-- A token has at least one character. -/
theorem text_scan_ne_nil (c : Char) (cs : List Char) : (scan c cs).text ≠ [] := by
  unfold scan
  split
  · simp [Lexeme.run]
  split
  · simp [scanWord]
  split
  · simp [Lexeme.run]
  split
  · simp [Lexeme.run]
  · simp [Lexeme.run]
  · cases h : untilCommentEnd _ <;> simp [Lexeme.closed]
  · simp [Lexeme.run]
  · simp [Lexeme.run]
  · unfold scanPath; split <;> simp
  · split <;> simp [Lexeme.run]
  · cases h : untilBalanced _ _ <;> simp [Lexeme.closed]
  · unfold scanPunct
    split
    · next h => exact (Punct.longest?_eq_some h).1
    · simp

theorem length_rest_scan_lt (c : Char) (cs : List Char) :
    (scan c cs).rest.length < (c :: cs).length := by
  have h := congrArg List.length (text_scan c cs)
  have hpos := List.length_pos_iff.2 (text_scan_ne_nil c cs)
  rw [List.length_append] at h
  omega

/-- The lexemes of a text. -/
def lexemes : List Char → List Lexeme
  | [] => []
  | c :: cs => scan c cs :: lexemes (scan c cs).rest
termination_by cs => cs.length
decreasing_by exact length_rest_scan_lt c cs

/-- Tokens for a list of lexemes, the first at the given offset. -/
def place (offset : Nat) : List Lexeme → List Token
  | [] => []
  | l :: ls =>
    let text := String.ofList l.text
    ⟨l.kind, text, offset⟩ :: place (offset + text.utf8ByteSize) ls

end Lexer

open Lexer

/-- The tokens of a text. -/
def tokenize (text : String) : List Token := place 0 (lexemes text.toList)

/-- The tokens of a text without its trivia. -/
def significantTokens (text : String) : List Token :=
  (tokenize text).filter (!·.kind.isTrivia)

end RelLang
