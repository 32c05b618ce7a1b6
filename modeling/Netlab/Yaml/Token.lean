import Netlab.Yaml.Tag

namespace Netlab.Yaml

inductive TokenKind where
  | streamStart
  | streamEnd
  | version (major minor : Nat)
  | tagHandle (handle : String) (lead : Tag)
  | documentStart
  | documentEnd
  | blockSequenceStart
  | blockMappingStart
  | blockEnd
  | flowSequenceStart
  | flowSequenceEnd
  | flowMappingStart
  | flowMappingEnd
  | blockEntry
  | flowEntry
  | key
  | value
  | aliasTo (name : String)
  | anchor (name : String)
  | tag (handle : String) (rest : Tag)
  | scalar (text : String) (plain : Bool)
deriving DecidableEq

structure Token where
  kind : TokenKind
  start : Mark
  stop : Mark

/-- A place where a key may have started that only the colon behind it will show. -/
structure KeyPlace where
  required : Bool
  number : Nat
  mark : Mark

/-- How far a document has been read into tokens. There is one possible key for the block context and
one for each flow collection that is open, the innermost first. -/
structure Scanner where
  input : Input
  tokens : List Token
  indent : Int
  indents : List Int
  keys : List (Option KeyPlace)
  keyAllowed : Bool
  ended : Bool

abbrev Scan (α : Type) := StateT Scanner (Except Fault) α

namespace Scanner

def ofText (s : String) : Scanner where
  input := .ofText s
  tokens := [⟨.streamStart, .start, .start⟩]
  indent := -1
  indents := []
  keys := [none]
  keyAllowed := true
  ended := false

def inFlow (s : Scanner) : Bool := 1 < s.keys.length

/-- Reading ends with a token of its own, so the end counts too. -/
def unread (s : Scanner) : Nat := if s.ended then 0 else s.input.rest.length + 1

/-- The tokens that no later one can be put in front of. -/
def settled (s : Scanner) : List Token :=
  match (s.keys.filterMap id).map (fun k => k.number) with
  | [] => s.tokens
  | n :: ns => s.tokens.take (ns.foldl min n)

end Scanner

namespace Scan

def fail {α : Type} (problem : String) (mark : Mark) : Scan α :=
  throw (.malformed problem mark none)

def enqueue (kind : TokenKind) (start stop : Mark) : Scan Unit :=
  modify fun s => { s with tokens := s.tokens ++ [⟨kind, start, stop⟩] }

/-- Put a token in front of the one with the given number. -/
def insert (number : Nat) (t : Token) : Scan Unit :=
  modify fun s => { s with tokens := s.tokens.take number ++ t :: s.tokens.drop number }

def allowKey (allowed : Bool) : Scan Unit :=
  modify fun s => { s with keyAllowed := allowed }

def noColon (k : KeyPlace) (mark : Mark) : Fault :=
  .within "while scanning a simple key" k.mark "could not find expected ':'" mark

/-- A key ends with its line and within 1024 characters. -/
def isStale (mark : Mark) (k : KeyPlace) : Bool :=
  k.mark.line < mark.line || k.mark.index + 1024 < mark.index

def dropStale : Scan Unit := do
  let s ← get
  let mark := s.input.mark
  match (s.keys.filterMap id).find? (fun k => isStale mark k && k.required) with
  | some k => throw (noColon k mark)
  | none => set { s with keys := s.keys.map (Option.filter (fun k => !isStale mark k)) }

def dropKey : Scan Unit := do
  let s ← get
  match s.keys with
  | [] => return ()
  | k :: keys =>
    match k.filter (fun k => k.required) with
    | some k => throw (noColon k s.input.mark)
    | none => set { s with keys := none :: keys }

/-- Remember that a key may start here. -/
def saveKey : Scan Unit := do
  if (← get).keyAllowed then
    dropKey
    modify fun s =>
      let required := !s.inFlow && s.indent = s.input.mark.column
      { s with keys := some ⟨required, s.tokens.length, s.input.mark⟩ :: s.keys.drop 1 }

/-- Open a block at the given column, unless one is open there. -/
def roll (column : Nat) (number? : Option Nat) (kind : TokenKind) (mark : Mark) : Scan Unit := do
  let s ← get
  if !s.inFlow && s.indent < column then
    set { s with indents := s.indent :: s.indents, indent := (column : Int) }
    match number? with
    | none => enqueue kind mark mark
    | some n => insert n ⟨kind, mark, mark⟩

/-- Close the blocks that are indented by more than the given column. -/
def unrollFrom (column : Int) (mark : Mark) : Int → List Int → List Token × Int × List Int
  | indent, [] => ([], indent, [])
  | indent, i :: is =>
    if column < indent then
      let r := unrollFrom column mark i is
      (⟨.blockEnd, mark, mark⟩ :: r.1, r.2)
    else ([], indent, i :: is)

def unroll (column : Int) : Scan Unit :=
  modify fun s =>
    if s.inFlow then s
    else
      let (ends, indent, indents) := unrollFrom column s.input.mark s.indent s.indents
      { s with tokens := s.tokens ++ ends, indent, indents }

def skipBlanks (i : Input) (flow allowed : Bool) : Input :=
  let i := if i.mark.column = 0 && i.head? = some '\ufeff' then i.skip else i
  (i.dropWhile (fun c => c = ' ' || ((flow || !allowed) && c = '\t'))).skipComment

theorem length_skipBlanks_le (i : Input) (flow allowed : Bool) :
    (skipBlanks i flow allowed).rest.length ≤ i.rest.length := by
  refine Nat.le_trans (Input.length_skipComment_le _) (Nat.le_trans (Input.length_dropWhile_le _ _) ?_)
  split
  · exact i.length_skip_le
  · exact Nat.le_refl _

/-- Pass over blanks, comments and line breaks. A line break in block context allows a key. -/
def skipGaps (i : Input) (flow allowed : Bool) : Input × Bool :=
  let j := skipBlanks i flow allowed
  if h : j.head?.any isBreak then
    have : j.takeBreak.2.rest.length < i.rest.length :=
      Nat.lt_of_lt_of_le (Input.length_takeBreak_lt h) (length_skipBlanks_le i flow allowed)
    skipGaps j.takeBreak.2 flow (allowed || !flow)
  else (j, allowed)
termination_by i.rest.length

theorem length_skipGaps_le (i : Input) (flow allowed : Bool) :
    (skipGaps i flow allowed).1.rest.length ≤ i.rest.length := by
  fun_induction skipGaps i flow allowed with
  | case1 i allowed j _ hlt ih => exact Nat.le_trans ih (Nat.le_of_lt hlt)
  | case2 i allowed => exact length_skipBlanks_le i flow allowed

def toNextToken : Scan Unit :=
  modify fun s =>
    let (input, keyAllowed) := skipGaps s.input s.inFlow s.keyAllowed
    { s with input, keyAllowed }

abbrev Found := TokenKind × Mark × Input

def accept (read : Scanner → Except Fault Found) : Scan Unit := do
  let s ← get
  let (kind, stop, after) ← read s
  set { s with input := after }
  enqueue kind s.input.mark stop

def take (n : Nat) (kind : TokenKind) : Scan Unit :=
  accept fun s =>
    let stop := s.input.mark.advance n
    .ok (kind, stop, ⟨s.input.rest.drop n, stop⟩)

def streamEnd : Scan Unit := do
  modify fun s =>
    let mark := s.input.mark
    { s with input := ⟨[], if mark.column = 0 then mark else ⟨mark.index, mark.line + 1, 0⟩⟩ }
  unroll (-1)
  dropKey
  allowKey false
  let mark := (← get).input.mark
  enqueue .streamEnd mark mark
  modify fun s => { s with ended := true }

def documentMark (kind : TokenKind) : Scan Unit := do
  unroll (-1)
  dropKey
  allowKey false
  take 3 kind

def flowStart (kind : TokenKind) : Scan Unit := do
  saveKey
  modify fun s => { s with keys := none :: s.keys }
  allowKey true
  take 1 kind

def flowEnd (kind : TokenKind) : Scan Unit := do
  dropKey
  modify fun s => { s with keys := if s.inFlow then s.keys.drop 1 else s.keys }
  allowKey false
  take 1 kind

def flowEntry : Scan Unit := do
  dropKey
  allowKey true
  take 1 .flowEntry

/-- Open a block for an entry or a key, if one may start here. -/
def openBlock (kind : TokenKind) (refusal : String) : Scan Unit := do
  let s ← get
  if !s.inFlow then
    if s.keyAllowed then roll s.input.mark.column none kind s.input.mark
    else fail refusal s.input.mark

def blockEntry : Scan Unit := do
  openBlock .blockSequenceStart "block sequence entries are not allowed in this context"
  dropKey
  allowKey true
  take 1 .blockEntry

def key : Scan Unit := do
  openBlock .blockMappingStart "mapping keys are not allowed in this context"
  dropKey
  allowKey !(← get).inFlow
  take 1 .key

def value : Scan Unit := do
  match (← get).keys.head?.join with
  | some k =>
    -- What has been read since then turns out to be a key.
    insert k.number ⟨.key, k.mark, k.mark⟩
    roll k.mark.column (some k.number) .blockMappingStart k.mark
    modify fun s => { s with keys := none :: s.keys.drop 1 }
    allowKey false
  | none =>
    openBlock .blockMappingStart "mapping values are not allowed in this context"
    allowKey !(← get).inFlow
  take 1 .value

def nameToken (kind : String → TokenKind) (context : String) (i : Input) : Except Fault Found :=
  let name := i.skip.rest.takeWhile isWordChar
  let j := i.skip.dropWhile isWordChar
  let ends := fun c => isGap c || c = '?' || c = ':' || c = ',' || c = ']' || c = '\x7d' ||
    c = '%' || c = '@' || c = '\x60'
  if name.isEmpty || !j.atOrEnd 0 ends then
    .error (.within context i.mark "did not find expected alphabetic or numeric character" j.mark)
  else .ok (kind (String.ofList name), j.mark, j)

def anchor (kind : String → TokenKind) (context : String) : Scan Unit := do
  saveKey
  allowKey false
  accept fun s => nameToken kind context s.input

/-- The handle that a tag starts with: a word between exclamation marks, of which the second may be
missing. -/
def tagHandle (i : Input) : String × Input :=
  let word := i.skip.rest.takeWhile isWordChar
  let j := i.skip.dropWhile isWordChar
  if j.head? = some '!' then (String.ofList ('!' :: word ++ ['!']), j.skip)
  else (String.ofList ('!' :: word), j)

/-- The parts of a tag: `!<uri>`, `!handle!rest` or `!rest`. -/
def tagParts (i : Input) : Except Fault (String × Tag × Input) := do
  let unread := fun (r : String × Mark) => Fault.within "while parsing a tag" i.mark r.1 r.2
  if i.skip.head? = some '<' then
    let (rest, j) ← (Tag.read true i.skip.skip).mapError unread
    if j.head? = some '>' then return ("", rest, j.skip)
    else throw (.within "while scanning a tag" i.mark "did not find the expected '>'" j.mark)
  else
    let (handle, j) := tagHandle i
    if handle ≠ "!" ∧ handle.toList.getLast? = some '!' then
      let (rest, k) ← (Tag.read false j).mapError unread
      return (handle, rest, k)
    else
      let (bytes, k) ← (Tag.readBytes false i.skip).mapError unread
      let rest := Tag.cut ⟨bytes⟩
      return if rest.isEmpty then ("", Tag.bare, k) else ("!", rest, k)

def tagToken (flow : Bool) (i : Input) : Except Fault Found := do
  let (handle, rest, j) ← tagParts i
  if j.atOrEnd 0 isGap || (flow && j.head? = some ',') then return (.tag handle rest, j.mark, j)
  else
    throw (.within "while scanning a tag" i.mark "did not find expected whitespace or line break" j.mark)

def tag : Scan Unit := do
  saveKey
  allowKey false
  accept fun s => tagToken s.inFlow s.input

def directiveEnd (start : Mark) (i : Input) : Except Fault Input :=
  let i := (i.dropWhile isSpace).skipComment
  if i.atOrEnd 0 isBreak then .ok i.takeBreak.2
  else
    .error (.within "while scanning a directive" start
      "did not find expected comment or line break" i.mark)

def versionNumber (start : Mark) (i : Input) : Except Fault (Nat × Input) :=
  let digits := i.rest.takeWhile Char.isDigit
  let j := i.dropWhile Char.isDigit
  let fault := fun problem => Except.error (Fault.within "while scanning a %YAML directive" start problem j.mark)
  if digits.isEmpty then fault "did not find expected version number"
  else if 9 < digits.length then fault "found extremely long version number"
  else .ok (digits.foldl (fun n c => n * 10 + (c.toNat - '0'.toNat)) 0, j)

def versionDirective (start : Mark) (i : Input) : Except Fault Found := do
  let (major, j) ← versionNumber start i
  if j.head? = some '.' then
    let (minor, k) ← versionNumber start j.skip
    return (.version major minor, k.mark, ← directiveEnd start k)
  else
    throw (.within "while scanning a %YAML directive" start
      "did not find expected digit or '.' character" j.mark)

def tagDirective (start : Mark) (i : Input) : Except Fault Found := do
  let fault := fun problem mark => Fault.within "while scanning a %TAG directive" start problem mark
  let (handle, j) := tagHandle i
  if i.head? ≠ some '!' then throw (fault "did not find expected '!'" i.mark)
  else if handle.toList.getLast? ≠ some '!' then throw (fault "did not find expected '!'" j.mark)
  else if !j.head?.any isSpace then throw (fault "did not find expected whitespace" j.mark)
  else
    let (lead, k) ← (Tag.read true (j.dropWhile isSpace)).mapError (fun r =>
      Fault.within "while parsing a %TAG directive" start r.1 r.2)
    if k.atOrEnd 0 isGap then return (.tagHandle handle lead, k.mark, ← directiveEnd start k)
    else throw (fault "did not find expected whitespace or line break" k.mark)

def directiveLine (i : Input) : Except Fault Found :=
  let fault := fun problem mark => Except.error (Fault.within "while scanning a directive" i.mark problem mark)
  let name := String.ofList (i.skip.rest.takeWhile isWordChar)
  let j := i.skip.dropWhile isWordChar
  if name = "" then fault "could not find expected directive name" j.mark
  else if !j.atOrEnd 0 isGap then fault "found unexpected non-alphabetical character" j.mark
  else if name = "YAML" then versionDirective i.mark (j.dropWhile isSpace)
  else if name = "TAG" then tagDirective i.mark (j.dropWhile isSpace)
  else fault "found unknown directive name" j.mark

def directive : Scan Unit := do
  unroll (-1)
  dropKey
  allowKey false
  accept fun s => directiveLine s.input

def plainScalar (flow : Bool) : Scan Unit := do
  saveKey
  let s ← get
  let start := s.input.mark
  let (text, gap, after) ← plain flow (s.indent + 1).toNat start [] .none s.input
  set { s with input := after, keyAllowed := gap.isLines }
  enqueue (.scalar (String.ofList text) true) start after.mark

def quotedScalar (single : Bool) : Scan Unit := do
  saveKey
  allowKey false
  accept fun s => do
    let (text, after) ← quoted single s.input.mark [] s.input.skip
    return (.scalar (String.ofList text) false, after.mark, after)

def blockScalar (literal : Bool) : Scan Unit := do
  dropKey
  allowKey true
  accept fun s => do
    let (text, after) ← block literal s.indent s.input.mark s.input.skip
    return (.scalar (String.ofList text) false, after.mark, after)

/-- The characters that no plain scalar starts with. -/
def isIndicator (c : Char) : Bool :=
  c ∈ ['-', '?', ':', ',', '[', ']', '\x7b', '\x7d', '#', '&', '*', '!', '|', '>', '\'', '"', '%',
    '@', '\x60']

def startsPlain (flow : Bool) (i : Input) : Bool :=
  i.head?.any fun c =>
    !(isGap c || isIndicator c) || (c = '-' && !i.rest.tail.head?.any isSpace) ||
      (!flow && (c = '?' || c = ':') && !i.atOrEnd 1 isGap)

def nextHere (s : Scanner) : Scan Unit :=
  let i := s.input
  let flow := s.inFlow
  let gapFollows := i.atOrEnd 1 isGap
  match i.head? with
  | none => streamEnd
  | some c =>
    if i.mark.column = 0 && c = '%' then directive
    else if i.atTriple '-' then documentMark .documentStart
    else if i.atTriple '.' then documentMark .documentEnd
    else if c = '[' then flowStart .flowSequenceStart
    else if c = '\x7b' then flowStart .flowMappingStart
    else if c = ']' then flowEnd .flowSequenceEnd
    else if c = '\x7d' then flowEnd .flowMappingEnd
    else if c = ',' then flowEntry
    else if c = '-' && gapFollows then blockEntry
    else if c = '?' && (flow || gapFollows) then key
    else if c = ':' && (flow || gapFollows) then value
    else if c = '*' then anchor .aliasTo "while scanning an alias"
    else if c = '&' then anchor .anchor "while scanning an anchor"
    else if c = '!' then tag
    else if c = '|' && !flow then blockScalar true
    else if c = '>' && !flow then blockScalar false
    else if c = '\'' then quotedScalar true
    else if c = '"' then quotedScalar false
    else if startsPlain flow i then plainScalar flow
    else
      throw (.within "while scanning for the next token" i.mark
        "found character that cannot start any token" i.mark)

def next : Scan Unit := do
  toNextToken
  dropStale
  unroll (← get).input.mark.column
  nextHere (← get)

section

variable {α β : Type} {s : Scanner} {a : Scan α} {f : α → Scan β}

def KeepsAt (s : Scanner) (a : Scan α) : Prop := ∀ r, a s = .ok r → r.2.input = s.input

/-- A step that leaves the unread text alone. -/
def Keeps (a : Scan α) : Prop := ∀ s, KeepsAt s a

theorem keepsAt_throw (e : Fault) : KeepsAt s (throw e : Scan α) := by
  intro r h
  cases h

theorem keeps_pure (x : α) : Keeps (pure x : Scan α) := by
  intro s r h
  cases h
  rfl

theorem keepsAt_set {t : Scanner} (h : t.input = s.input) : KeepsAt s (set t : Scan PUnit) := by
  intro r hr
  cases hr
  exact h

theorem keeps_modify {g : Scanner → Scanner} (h : ∀ s, (g s).input = s.input) :
    Keeps (modify g : Scan PUnit) := by
  intro s r hr
  cases hr
  exact h s

theorem keeps_get {g : Scanner → Scan α} (h : ∀ s, KeepsAt s (g s)) : Keeps (do g (← get)) :=
  h

theorem KeepsAt.bind (ha : KeepsAt s a) (hf : ∀ x, Keeps (f x)) : KeepsAt s (a >>= f) := by
  intro r h
  obtain ⟨x, s', hx, h⟩ := stateT_bind_eq_ok.mp h
  exact (hf x s' r h).trans (ha _ hx)

theorem Keeps.bind (ha : Keeps a) (hf : ∀ x, Keeps (f x)) : Keeps (a >>= f) :=
  fun s => (ha s).bind hf

theorem keeps_enqueue (kind : TokenKind) (start stop : Mark) : Keeps (enqueue kind start stop) :=
  keeps_modify fun _ => rfl

theorem keeps_insert (number : Nat) (t : Token) : Keeps (insert number t) :=
  keeps_modify fun _ => rfl

theorem keeps_allowKey (allowed : Bool) : Keeps (allowKey allowed) :=
  keeps_modify fun _ => rfl

theorem keeps_unroll (column : Int) : Keeps (unroll column) := by
  refine keeps_modify fun s => ?_
  split <;> rfl

theorem keeps_dropStale : Keeps dropStale := by
  refine keeps_get fun s => ?_
  dsimp only
  split
  · exact keepsAt_throw _
  · exact keepsAt_set rfl

theorem keeps_dropKey : Keeps dropKey := by
  refine keeps_get fun s => ?_
  split
  · exact keeps_pure _ s
  · split
    · exact keepsAt_throw _
    · exact keepsAt_set rfl

theorem keeps_saveKey : Keeps saveKey := by
  refine keeps_get fun s => ?_
  split
  · refine keeps_dropKey.bind (fun _ => ?_) s
    exact keeps_modify fun _ => rfl
  · exact keeps_pure _ s

theorem keeps_roll (column : Nat) (number? : Option Nat) (kind : TokenKind) (mark : Mark) :
    Keeps (roll column number? kind mark) := by
  refine keeps_get fun s => ?_
  split
  · refine KeepsAt.bind (keepsAt_set ?_) fun _ => ?_
    · rfl
    · split
      · exact keeps_enqueue _ _ _
      · exact keeps_insert _ _
  · exact keeps_pure _ s

theorem keeps_openBlock (kind : TokenKind) (refusal : String) : Keeps (openBlock kind refusal) := by
  refine keeps_get fun s => ?_
  split
  · split
    · exact keeps_roll _ _ _ _ s
    · exact keepsAt_throw _
  · exact keeps_pure _ s

def TakesAt (s : Scanner) (a : Scan α) : Prop :=
  ∀ r, a s = .ok r → r.2.input.rest.length < s.input.rest.length

/-- A step that reads on as long as there is anything to read. -/
def Takes (a : Scan α) : Prop := ∀ s, s.input.rest ≠ [] → TakesAt s a

theorem Keeps.takes (ha : Keeps a) (hf : ∀ x, Takes (f x)) : Takes (a >>= f) := by
  intro s hs r h
  obtain ⟨x, s', hx, h⟩ := stateT_bind_eq_ok.mp h
  have hinput : s'.input = s.input := ha s _ hx
  rw [← hinput] at hs ⊢
  exact hf x s' hs r h

theorem takes_get {g : Scanner → Scan α} (h : ∀ s, Takes (g s)) : Takes (do g (← get)) :=
  fun s => h s s

theorem takes_accept {read : Scanner → Except Fault Found}
    (h : ∀ s r, s.input.rest ≠ [] → read s = .ok r → r.2.2.rest.length < s.input.rest.length) :
    Takes (accept read) := by
  intro s hs r hr
  obtain ⟨t, s', hget, hr⟩ := stateT_bind_eq_ok.mp hr
  cases hget
  obtain ⟨found, s', hfound, hr⟩ := stateT_bind_eq_ok.mp hr
  obtain ⟨hread, rfl⟩ := stateT_lift_eq_ok.mp hfound
  cases hr
  exact h _ _ hs hread

theorem takes_take {n : Nat} (hn : 0 < n) (kind : TokenKind) : Takes (take n kind) := by
  refine takes_accept fun s r hs h => ?_
  cases h
  have hlen := List.length_pos_iff.mpr hs
  rw [List.length_drop]
  omega

theorem takes_documentMark (kind : TokenKind) : Takes (documentMark kind) :=
  (keeps_unroll _).takes fun _ => keeps_dropKey.takes fun _ => (keeps_allowKey _).takes
    fun _ => takes_take (by decide) _

theorem takes_flowStart (kind : TokenKind) : Takes (flowStart kind) := by
  refine keeps_saveKey.takes fun _ => Keeps.takes ?_ fun _ => (keeps_allowKey _).takes
    fun _ => takes_take (by decide) _
  exact keeps_modify fun _ => rfl

theorem takes_flowEnd (kind : TokenKind) : Takes (flowEnd kind) := by
  refine keeps_dropKey.takes fun _ => Keeps.takes ?_ fun _ => (keeps_allowKey _).takes
    fun _ => takes_take (by decide) _
  exact keeps_modify fun _ => rfl

theorem takes_flowEntry : Takes flowEntry :=
  keeps_dropKey.takes fun _ => (keeps_allowKey _).takes fun _ => takes_take (by decide) _

theorem takes_blockEntry : Takes blockEntry :=
  (keeps_openBlock _ _).takes fun _ => keeps_dropKey.takes fun _ => (keeps_allowKey _).takes
    fun _ => takes_take (by decide) _

theorem takes_key : Takes key :=
  (keeps_openBlock _ _).takes fun _ => keeps_dropKey.takes fun _ => takes_get
    fun _ => (keeps_allowKey _).takes fun _ => takes_take (by decide) _

theorem takes_value : Takes value := by
  refine takes_get fun s => ?_
  split
  · refine (keeps_insert _ _).takes fun _ => (keeps_roll _ _ _ _).takes fun _ => Keeps.takes ?_
      fun _ => (keeps_allowKey _).takes fun _ => takes_take (by decide) _
    exact keeps_modify fun _ => rfl
  · exact (keeps_openBlock _ _).takes fun _ => takes_get fun _ => (keeps_allowKey _).takes
      fun _ => takes_take (by decide) _

end

section

variable {i j : Input} {start : Mark} {r : Found}

theorem length_nameToken_lt {kind : String → TokenKind} {context : String} (hi : i.rest ≠ [])
    (h : nameToken kind context i = .ok r) : r.2.2.rest.length < i.rest.length := by
  obtain ⟨-, h⟩ := error_ite_eq_ok.mp h
  cases h
  exact Nat.lt_of_le_of_lt (i.skip.length_dropWhile_le _) (Input.length_skip_lt hi)

theorem length_tagHandle_le (i : Input) : (tagHandle i).2.rest.length ≤ i.skip.rest.length := by
  have hword := i.skip.length_dropWhile_le isWordChar
  unfold tagHandle
  dsimp only
  split
  · exact Nat.le_trans (Input.length_skip_le _) hword
  · exact hword

theorem length_tagParts_le {handle : String} {rest : Tag} (h : tagParts i = .ok (handle, rest, j)) :
    j.rest.length ≤ i.skip.rest.length := by
  unfold tagParts at h
  dsimp only at h
  split at h
  · obtain ⟨⟨t, k⟩, hread, h⟩ := bind_eq_ok.mp h
    have hk := Tag.length_read_le (mapError_eq_ok.mp hread)
    obtain ⟨-, h⟩ := ite_error_eq_ok.mp h
    cases h
    exact Nat.le_trans k.length_skip_le (Nat.le_trans hk i.skip.length_skip_le)
  · split at h
    · obtain ⟨⟨t, k⟩, hread, h⟩ := bind_eq_ok.mp h
      cases h
      exact Nat.le_trans (Tag.length_read_le (mapError_eq_ok.mp hread)) (length_tagHandle_le i)
    · obtain ⟨⟨bytes, k⟩, hread, h⟩ := bind_eq_ok.mp h
      have hk := Tag.length_readBytes_le (mapError_eq_ok.mp hread)
      dsimp only at h
      split at h <;> cases h <;> exact hk

theorem length_tagToken_lt {flow : Bool} (hi : i.rest ≠ []) (h : tagToken flow i = .ok r) :
    r.2.2.rest.length < i.rest.length := by
  obtain ⟨⟨handle, rest, k⟩, hparts, h⟩ := bind_eq_ok.mp h
  obtain ⟨-, h⟩ := ite_error_eq_ok.mp h
  cases h
  exact Nat.lt_of_le_of_lt (length_tagParts_le hparts) (Input.length_skip_lt hi)

theorem length_directiveEnd_le (h : directiveEnd start i = .ok j) : j.rest.length ≤ i.rest.length := by
  obtain ⟨-, h⟩ := ite_error_eq_ok.mp h
  cases h
  exact Nat.le_trans (Input.length_takeBreak_le _) (Nat.le_trans (Input.length_skipComment_le _)
    (i.length_dropWhile_le _))

theorem length_versionNumber_le {n : Nat} (h : versionNumber start i = .ok (n, j)) :
    j.rest.length ≤ i.rest.length := by
  obtain ⟨-, h⟩ := error_ite_eq_ok.mp h
  obtain ⟨-, h⟩ := error_ite_eq_ok.mp h
  cases h
  exact i.length_dropWhile_le _

theorem length_versionDirective_le (h : versionDirective start i = .ok r) :
    r.2.2.rest.length ≤ i.rest.length := by
  obtain ⟨⟨major, k⟩, hmajor, h⟩ := bind_eq_ok.mp h
  obtain ⟨-, h⟩ := ite_error_eq_ok.mp h
  obtain ⟨⟨minor, l⟩, hminor, h⟩ := bind_eq_ok.mp h
  obtain ⟨after, hafter, h⟩ := bind_eq_ok.mp h
  cases h
  exact Nat.le_trans (length_directiveEnd_le hafter) (Nat.le_trans (length_versionNumber_le hminor)
    (Nat.le_trans k.length_skip_le (length_versionNumber_le hmajor)))

theorem length_tagDirective_le (h : tagDirective start i = .ok r) :
    r.2.2.rest.length ≤ i.rest.length := by
  have hhandle := Nat.le_trans (length_tagHandle_le i) i.length_skip_le
  obtain ⟨-, h⟩ := error_ite_eq_ok.mp h
  obtain ⟨-, h⟩ := error_ite_eq_ok.mp h
  obtain ⟨-, h⟩ := error_ite_eq_ok.mp h
  obtain ⟨⟨lead, k⟩, hread, h⟩ := bind_eq_ok.mp h
  have hk := Tag.length_read_le (mapError_eq_ok.mp hread)
  obtain ⟨-, h⟩ := ite_error_eq_ok.mp h
  obtain ⟨after, hafter, h⟩ := bind_eq_ok.mp h
  cases h
  exact Nat.le_trans (length_directiveEnd_le hafter) (Nat.le_trans hk
    (Nat.le_trans (Input.length_dropWhile_le _ _) hhandle))

theorem length_directiveLine_lt (hi : i.rest ≠ []) (h : directiveLine i = .ok r) :
    r.2.2.rest.length < i.rest.length := by
  have hname : ((i.skip.dropWhile isWordChar).dropWhile isSpace).rest.length < i.rest.length :=
    Nat.lt_of_le_of_lt (Input.length_dropWhile_le _ _)
      (Nat.lt_of_le_of_lt (Input.length_dropWhile_le _ _) (Input.length_skip_lt hi))
  obtain ⟨-, h⟩ := error_ite_eq_ok.mp h
  obtain ⟨-, h⟩ := error_ite_eq_ok.mp h
  split at h
  · exact Nat.lt_of_le_of_lt (length_versionDirective_le h) hname
  · obtain ⟨-, h⟩ := ite_error_eq_ok.mp h
    exact Nat.lt_of_le_of_lt (length_tagDirective_le h) hname

end

theorem takes_anchor (kind : String → TokenKind) (context : String) : Takes (anchor kind context) :=
  keeps_saveKey.takes fun _ => (keeps_allowKey _).takes fun _ => takes_accept
    fun _ _ hs h => length_nameToken_lt hs h

theorem takes_tag : Takes tag :=
  keeps_saveKey.takes fun _ => (keeps_allowKey _).takes fun _ => takes_accept
    fun _ _ hs h => length_tagToken_lt hs h

theorem takes_directive : Takes directive :=
  (keeps_unroll _).takes fun _ => keeps_dropKey.takes fun _ => (keeps_allowKey _).takes
    fun _ => takes_accept fun _ _ hs h => length_directiveLine_lt hs h

theorem takes_quotedScalar (single : Bool) : Takes (quotedScalar single) := by
  refine keeps_saveKey.takes fun _ => (keeps_allowKey _).takes fun _ => takes_accept fun s r hs h => ?_
  obtain ⟨⟨text, after⟩, hread, h⟩ := bind_eq_ok.mp h
  cases h
  exact Nat.lt_of_le_of_lt (length_quoted_le hread) (Input.length_skip_lt hs)

theorem takes_blockScalar (literal : Bool) : Takes (blockScalar literal) := by
  refine keeps_dropKey.takes fun _ => (keeps_allowKey _).takes fun _ => takes_accept fun s r hs h => ?_
  obtain ⟨⟨text, after⟩, hread, h⟩ := bind_eq_ok.mp h
  cases h
  exact Nat.lt_of_le_of_lt (length_block_le hread) (Input.length_skip_lt hs)

theorem plainRun_ne_nil {flow : Bool} {c : Char} {cs : List Char} {m : Mark} {i : Input}
    (hgap : isGap c = false) (hcolon : (c = ':' && cs.head?.all isGap) = false)
    (hflow : (flow && isFlowMark c) = false) : plainRun flow (c :: cs) m ≠ .ok ([], i) := by
  intro h
  unfold plainRun at h
  rw [if_neg (by simp [hgap])] at h
  split at h
  · cases h
  · rw [if_neg (by simp [hcolon, hflow])] at h
    obtain ⟨r, -, h⟩ := map_eq_ok.mp h
    cases h

theorem length_plain_lt {flow : Bool} {indent : Nat} {start : Mark} {text text' : List Char}
    {g g' : Gap} {i j : Input} (hmark : i.atDocumentMark = false) (hstart : startsPlain flow i = true)
    (h : plain flow indent start text g i = .ok (text', g', j)) : j.rest.length < i.rest.length := by
  obtain ⟨rest, mark⟩ := i
  cases rest with
  | nil => cases hstart
  | cons c cs =>
    have hfirst : isGap c = false ∧ c ≠ '#' ∧ (c = ':' && cs.head?.all isGap) = false ∧
        (flow && isFlowMark c) = false := by
      simp only [startsPlain, Input.head?, List.head?_cons, Option.any_some, List.tail_cons,
        Bool.or_eq_true, Bool.and_eq_true, Bool.not_eq_true', decide_eq_true_eq] at hstart
      rcases hstart with (hplain | ⟨rfl, -⟩) | ⟨⟨hflow, hc⟩, hnext⟩
      · simp only [Bool.or_eq_false_iff, isIndicator, decide_eq_false_iff_not, List.mem_cons,
          not_or] at hplain
        simp [hplain, isFlowMark]
      · refine ⟨by decide, by decide, by simp, ?_⟩
        cases flow <;> decide
      · have hall : cs.head?.all isGap = false := hnext
        rw [hflow, hall]
        rcases hc with rfl | rfl <;> decide
    obtain ⟨hgap, hhash, hcolon, hflow⟩ := hfirst
    exact (length_plain h).2 hmark (by simpa [Input.head?] using hhash)
      fun _ => plainRun_ne_nil hgap hcolon hflow

theorem takesAt_plainScalar {s : Scanner} {flow : Bool} (hmark : s.input.atDocumentMark = false)
    (hstart : startsPlain flow s.input = true) : TakesAt s (plainScalar flow) := by
  intro r h
  obtain ⟨_, s', hsave, h⟩ := stateT_bind_eq_ok.mp h
  have hinput : s'.input = s.input := keeps_saveKey s _ hsave
  obtain ⟨t, s'', hget, h⟩ := stateT_bind_eq_ok.mp h
  cases hget
  obtain ⟨⟨text, gap, after⟩, s'', hread, h⟩ := stateT_bind_eq_ok.mp h
  obtain ⟨hplain, rfl⟩ := stateT_lift_eq_ok.mp hread
  cases h
  rw [← hinput] at hmark hstart ⊢
  exact length_plain_lt hmark hstart hplain

theorem ended_streamEnd {s : Scanner} {r : Unit × Scanner} (h : streamEnd s = .ok r) :
    r.2.ended = true := by
  obtain ⟨_, s₁, -, h⟩ := stateT_bind_eq_ok.mp h
  obtain ⟨_, s₂, -, h⟩ := stateT_bind_eq_ok.mp h
  obtain ⟨_, s₃, -, h⟩ := stateT_bind_eq_ok.mp h
  obtain ⟨_, s₄, -, h⟩ := stateT_bind_eq_ok.mp h
  obtain ⟨_, s₅, -, h⟩ := stateT_bind_eq_ok.mp h
  obtain ⟨_, s₆, -, h⟩ := stateT_bind_eq_ok.mp h
  cases h
  rfl

theorem takesAt_ite {s : Scanner} {p : Prop} [Decidable p] {a b : Scan Unit} (ha : p → TakesAt s a)
    (hb : ¬p → TakesAt s b) : TakesAt s (if p then a else b) := by
  split
  · exact ha ‹_›
  · exact hb ‹_›

theorem takesAt_nextHere {s : Scanner} {c : Char} (hc : s.input.head? = some c) :
    TakesAt s (nextHere s) := by
  have hs : s.input.rest ≠ [] := by
    intro h
    simp [Input.head?, h] at hc
  unfold nextHere
  simp only [hc]
  refine takesAt_ite (fun _ => takes_directive s hs) fun _ => ?_
  refine takesAt_ite (fun _ => takes_documentMark _ s hs) fun hdashes => ?_
  refine takesAt_ite (fun _ => takes_documentMark _ s hs) fun hdots => ?_
  refine takesAt_ite (fun _ => takes_flowStart _ s hs) fun _ => ?_
  refine takesAt_ite (fun _ => takes_flowStart _ s hs) fun _ => ?_
  refine takesAt_ite (fun _ => takes_flowEnd _ s hs) fun _ => ?_
  refine takesAt_ite (fun _ => takes_flowEnd _ s hs) fun _ => ?_
  refine takesAt_ite (fun _ => takes_flowEntry s hs) fun _ => ?_
  refine takesAt_ite (fun _ => takes_blockEntry s hs) fun _ => ?_
  refine takesAt_ite (fun _ => takes_key s hs) fun _ => ?_
  refine takesAt_ite (fun _ => takes_value s hs) fun _ => ?_
  refine takesAt_ite (fun _ => takes_anchor _ _ s hs) fun _ => ?_
  refine takesAt_ite (fun _ => takes_anchor _ _ s hs) fun _ => ?_
  refine takesAt_ite (fun _ => takes_tag s hs) fun _ => ?_
  refine takesAt_ite (fun _ => takes_blockScalar _ s hs) fun _ => ?_
  refine takesAt_ite (fun _ => takes_blockScalar _ s hs) fun _ => ?_
  refine takesAt_ite (fun _ => takes_quotedScalar _ s hs) fun _ => ?_
  refine takesAt_ite (fun _ => takes_quotedScalar _ s hs) fun _ => ?_
  refine takesAt_ite (fun hstart => takesAt_plainScalar ?_ hstart) fun _ => ?_
  · simp [Input.atDocumentMark, hdashes, hdots]
  · intro r h
    cases h

/-- Each token takes something of the text, or it is the last one. -/
theorem unread_next {s : Scanner} {r : Unit × Scanner} (hs : s.ended = false) (h : next s = .ok r) :
    r.2.unread < s.unread := by
  obtain ⟨_, s₁, hgaps, h⟩ := stateT_bind_eq_ok.mp h
  obtain ⟨_, s₂, hstale, h⟩ := stateT_bind_eq_ok.mp h
  obtain ⟨t, s₃, hget, h⟩ := stateT_bind_eq_ok.mp h
  cases hget
  obtain ⟨_, s₄, hunroll, h⟩ := stateT_bind_eq_ok.mp h
  obtain ⟨u, s₅, hget, h⟩ := stateT_bind_eq_ok.mp h
  cases hget
  have hinput : s₄.input = s₁.input := (keeps_unroll _ _ _ hunroll).trans (keeps_dropStale _ _ hstale)
  have hle : s₁.input.rest.length ≤ s.input.rest.length := by
    cases hgaps
    exact length_skipGaps_le _ _ _
  rw [← hinput] at hle
  -- Only gaps have been passed over so far.
  cases hc : s₄.input.head? with
  | none =>
    simp only [nextHere, hc] at h
    simp [Scanner.unread, hs, ended_streamEnd h]
  | some c =>
    have hlt := takesAt_nextHere hc r h
    have hleft : r.2.unread ≤ r.2.input.rest.length + 1 := by
      unfold Scanner.unread
      split
      · exact Nat.zero_le _
      · exact Nat.le_refl _
    have hwhole : s.unread = s.input.rest.length + 1 := by
      rw [Scanner.unread, hs]
      rfl
    omega

end Scan

/-- Read tokens up to the end or to the first fault. -/
def Scanner.run (s : Scanner) : List Token × Option Fault :=
  if he : s.ended then (s.tokens, none)
  else
    match h : Scan.next s with
    | .ok (_, s') =>
      have := Scan.unread_next (Bool.eq_false_iff.mpr he) h
      run s'
    | .error f => (s.settled, some f)
termination_by s.unread

/-- The place of the first character that no document may hold, counted in bytes. -/
def controlOffset? (cs : List Char) : Option Nat :=
  match cs.dropWhile isAllowed with
  | [] => none
  | _ => some ((cs.takeWhile isAllowed).foldl (fun n c => n + c.utf8Size) 0)

/-- The tokens of a text, as far as they can be told before a fault. -/
def Token.ofText (s : String) : List Token × Option Fault :=
  match controlOffset? s.toList with
  | some n => ([⟨.streamStart, .start, .start⟩], some (.control n))
  | none => (Scanner.ofText s).run

end Netlab.Yaml
