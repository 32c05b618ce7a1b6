import Netlab.Yaml.Token

namespace Netlab.Yaml

/-- A step through a document. An alias is given by the number of an anchor, and a document without any
content is `void`. -/
inductive Event where
  | scalar (text : String) (plain : Bool) (tag? : Option Tag)
  | sequenceStart (tag? : Option Tag)
  | sequenceEnd
  | mappingStart (tag? : Option Tag)
  | mappingEnd
  | aliasTo (anchor : Nat)
  | void
deriving DecidableEq

inductive Item where
  | documentStart
  | documentEnd
  | streamEnd
  | aliasTo (name : String)
  | node (anchor? : Option String) (event : Event)

/-- What is expected next, with the place where the collection in question was opened. -/
inductive Expect where
  | documentStart (implicit : Bool)
  | documentContent
  | documentEnd
  | blockNode
  | blockEntry (opened : Mark)
  | indentlessEntry
  | blockKey (opened : Mark)
  | blockValue (opened : Mark)
  | flowEntry (opened : Mark) (first : Bool)
  | pairKey (opened : Mark)
  | pairValue (opened : Mark)
  | pairEnd (opened : Mark)
  | flowKey (opened : Mark) (first : Bool)
  | flowValue (opened : Mark)
  | flowNoValue (opened : Mark)
  | nothing

structure Walk where
  tokens : List Token
  fault? : Option Fault
  expect : Expect
  outer : List Expect
  handles : List (String × Tag)

namespace Walk

def advance (w : Walk) : Walk := { w with tokens := w.tokens.drop 1 }

def await (e : Expect) (w : Walk) : Walk := { w with expect := e }

def later (e : Expect) (w : Walk) : Walk := { w with outer := e :: w.outer }

/-- Go back to what was expected outside of the node that ends here. -/
def back (w : Walk) : Walk := { w with expect := w.outer.headD .nothing, outer := w.outer.drop 1 }

def cutShort (w : Walk) : Fault := w.fault?.getD .endOfStream

end Walk

abbrev Step (α : Type) := StateT Walk (Except Fault) α

namespace Step

def peek : Step Token := do
  let w ← get
  match w.tokens with
  | t :: _ => return t
  | [] => throw w.cutShort

def advance : Step Unit := modify Walk.advance

def await (e : Expect) : Step Unit := modify (Walk.await e)

def later (e : Expect) : Step Unit := modify (Walk.later e)

def back : Step Unit := modify Walk.back

def done (event : Event) (mark : Mark) : Step (Item × Mark) :=
  return (.node none event, mark)

def empty (mark : Mark) : Step (Item × Mark) :=
  done (.scalar "" true none) mark

def standardHandles : List (String × Tag) :=
  [("!", Tag.bare), ("!!", Tag.standardLead)]

def resolveTag (start mark : Mark) (handle : String) (rest : Tag) : Step Tag := do
  if handle = "" then return rest
  else
    match ((← get).handles ++ standardHandles).find? (fun h => h.1 = handle) with
    | some h => return h.2.append rest
    | none => throw (.within "while parsing a node" start "found undefined tag handle" mark)

/-- The anchor and the tag before a node, in either order. -/
def properties : Step (Option String × Option Tag × Mark) := do
  let first ← peek
  let start := first.start
  match first.kind with
  | .anchor name =>
    advance
    let second ← peek
    match second.kind with
    | .tag handle rest =>
      advance
      return (some name, some (← resolveTag start second.start handle rest), start)
    | _ => return (some name, none, start)
  | .tag handle rest =>
    advance
    let second ← peek
    match second.kind with
    | .anchor name =>
      advance
      return (some name, some (← resolveTag start first.start handle rest), start)
    | _ => return (none, some (← resolveTag start first.start handle rest), start)
  | _ => return (none, none, start)

/-- Read a node, or the start of one. -/
def node (block indentless : Bool) : Step (Item × Mark) := do
  let t ← peek
  match t.kind with
  | .aliasTo name =>
    advance
    back
    return (.aliasTo name, t.start)
  | _ =>
    let (anchor?, tag?, start) ← properties
    let t ← peek
    let answer := fun event => (return (.node anchor? event, start) : Step (Item × Mark))
    match t.kind, block, indentless with
    | .blockEntry, _, true =>
      await .indentlessEntry
      answer (.sequenceStart tag?)
    | .scalar text plain, _, _ =>
      advance
      back
      answer (.scalar text plain tag?)
    | .flowSequenceStart, _, _ =>
      advance
      await (.flowEntry t.start true)
      answer (.sequenceStart tag?)
    | .flowMappingStart, _, _ =>
      advance
      await (.flowKey t.start true)
      answer (.mappingStart tag?)
    | .blockSequenceStart, true, _ =>
      advance
      await (.blockEntry t.start)
      answer (.sequenceStart tag?)
    | .blockMappingStart, true, _ =>
      advance
      await (.blockKey t.start)
      answer (.mappingStart tag?)
    | _, _, _ =>
      if anchor?.isSome || tag?.isSome then
        back
        answer (.scalar "" true tag?)
      else
        throw (.within (if block then "while parsing a block node" else "while parsing a flow node")
          start "did not find expected node content" t.start)

/-- Read a node unless the next token is one of the given, in which case none is written. -/
def nodeUnless (ends : List TokenKind) (next : Expect) (block indentless : Bool) (mark : Mark) :
    Step (Item × Mark) := do
  if (← peek).kind ∈ ends then
    await next
    empty mark
  else
    later next
    node block indentless

/-- The handles that the directives before a document declare, and the tokens behind these. -/
def directives (cutShort : Fault) (versioned : Bool) (handles : List (String × Tag)) :
    List Token → Except Fault (List (String × Tag) × List Token)
  | [] => .error cutShort
  | t :: ts =>
    match t.kind with
    | .version major minor =>
      if versioned then .error (.malformed "found duplicate %YAML directive" t.start none)
      else if major ≠ 1 ∨ (minor ≠ 1 ∧ minor ≠ 2) then
        .error (.malformed "found incompatible YAML document" t.start none)
      else directives cutShort true handles ts
    | .tagHandle handle lead =>
      if handles.any (fun h => h.1 = handle) then
        .error (.malformed "found duplicate %TAG directive" t.start none)
      else directives cutShort versioned (handles ++ [(handle, lead)]) ts
    | _ => .ok (handles, t :: ts)

def takeDirectives : Step Unit := do
  let w ← get
  let (handles, tokens) ← directives w.cutShort false [] w.tokens
  set { w with handles, tokens }

/-- Pass over the marks that end a document, unless the first one starts here, and forget handles. -/
def enterDocument (implicit : Bool) : Step Unit :=
  modify fun w =>
    { w with
      tokens := if implicit then w.tokens else w.tokens.dropWhile (fun t => t.kind = .documentEnd)
      handles := [] }

/-- A document behind directives and a mark of its own. -/
def markedStart (mark : Mark) : Step (Item × Mark) := do
  takeDirectives
  let t ← peek
  if t.kind = .documentStart then
    advance
    later .documentEnd
    await .documentContent
    return (.documentStart, mark)
  else throw (.malformed "did not find expected <document start>" t.start none)

def documentStart (implicit : Bool) : Step (Item × Mark) := do
  enterDocument implicit
  let t ← peek
  match t.kind with
  | .streamEnd =>
    advance
    await .nothing
    return (.streamEnd, t.start)
  | .version _ _ | .tagHandle _ _ | .documentStart => markedStart t.start
  | _ =>
    if implicit then
      later .documentEnd
      await .blockNode
      return (.documentStart, t.start)
    else throw (.malformed "did not find expected <document start>" t.start none)

def documentContent : Step (Item × Mark) := do
  let t ← peek
  match t.kind with
  | .version _ _ | .tagHandle _ _ | .documentStart | .documentEnd | .streamEnd =>
    back
    empty t.start
  | _ => node true false

def skip (kind : TokenKind) : Step Unit := do
  if (← peek).kind = kind then advance

def documentEnd : Step (Item × Mark) := do
  let t ← peek
  skip .documentEnd
  await (.documentStart false)
  return (.documentEnd, t.start)

def close (event : Event) : Step (Item × Mark) := do
  let t ← peek
  advance
  back
  done event t.start

def blockEntry (opened : Mark) : Step (Item × Mark) := do
  let t ← peek
  match t.kind with
  | .blockEntry =>
    advance
    nodeUnless [.blockEntry, .blockEnd] (.blockEntry opened) true false t.stop
  | .blockEnd => close .sequenceEnd
  | _ =>
    throw (.within "while parsing a block collection" opened
      "did not find expected '-' indicator" t.start)

def indentlessEntry : Step (Item × Mark) := do
  let t ← peek
  match t.kind with
  | .blockEntry =>
    advance
    nodeUnless [.blockEntry, .key, .value, .blockEnd] .indentlessEntry true false t.stop
  | _ =>
    back
    done .sequenceEnd t.start

def blockKey (opened : Mark) : Step (Item × Mark) := do
  let t ← peek
  match t.kind with
  | .key =>
    advance
    nodeUnless [.key, .value, .blockEnd] (.blockValue opened) true true t.stop
  | .blockEnd => close .mappingEnd
  | _ =>
    throw (.within "while parsing a block mapping" opened "did not find expected key" t.start)

def blockValue (opened : Mark) : Step (Item × Mark) := do
  let t ← peek
  match t.kind with
  | .value =>
    advance
    nodeUnless [.key, .value, .blockEnd] (.blockKey opened) true true t.stop
  | _ =>
    await (.blockKey opened)
    empty t.start

def separator (first : Bool) (context : String) (opened : Mark) (problem : String) : Step Unit := do
  if !first then
    let t ← peek
    if t.kind = .flowEntry then advance
    else throw (.within context opened problem t.start)

def flowEntry (opened : Mark) (first : Bool) : Step (Item × Mark) := do
  if (← peek).kind = .flowSequenceEnd then close .sequenceEnd
  else
    separator first "while parsing a flow sequence" opened "did not find expected ',' or ']'"
    let t ← peek
    match t.kind with
    | .key =>
      advance
      await (.pairKey opened)
      done (.mappingStart none) t.start
    | .flowSequenceEnd => close .sequenceEnd
    | _ =>
      later (.flowEntry opened false)
      node false false

def pairKey (opened : Mark) : Step (Item × Mark) := do
  let t ← peek
  nodeUnless [.value, .flowEntry, .flowSequenceEnd] (.pairValue opened) false false t.stop

def pairValue (opened : Mark) : Step (Item × Mark) := do
  skip .value
  let t ← peek
  nodeUnless [.flowEntry, .flowSequenceEnd] (.pairEnd opened) false false t.start

def pairEnd (opened : Mark) : Step (Item × Mark) := do
  let t ← peek
  await (.flowEntry opened false)
  done .mappingEnd t.start

def flowKey (opened : Mark) (first : Bool) : Step (Item × Mark) := do
  if (← peek).kind = .flowMappingEnd then close .mappingEnd
  else
    separator first "while parsing a flow mapping" opened "did not find expected ',' or '\x7d'"
    let t ← peek
    match t.kind with
    | .key =>
      advance
      let t ← peek
      nodeUnless [.value, .flowEntry, .flowMappingEnd] (.flowValue opened) false false t.start
    | .flowMappingEnd => close .mappingEnd
    | _ =>
      later (.flowNoValue opened)
      node false false

def flowValue (opened : Mark) : Step (Item × Mark) := do
  skip .value
  let t ← peek
  nodeUnless [.flowEntry, .flowMappingEnd] (.flowKey opened false) false false t.start

def flowNoValue (opened : Mark) : Step (Item × Mark) := do
  let t ← peek
  await (.flowKey opened false)
  empty t.start

def next : Step (Item × Mark) := do
  match (← get).expect with
  | .documentStart implicit => documentStart implicit
  | .documentContent => documentContent
  | .documentEnd => documentEnd
  | .blockNode => node true false
  | .blockEntry opened => blockEntry opened
  | .indentlessEntry => indentlessEntry
  | .blockKey opened => blockKey opened
  | .blockValue opened => blockValue opened
  | .flowEntry opened first => flowEntry opened first
  | .pairKey opened => pairKey opened
  | .pairValue opened => pairValue opened
  | .pairEnd opened => pairEnd opened
  | .flowKey opened first => flowKey opened first
  | .flowValue opened => flowValue opened
  | .flowNoValue opened => flowNoValue opened
  | .nothing => throw .endOfStream

end Step

/-- How many steps an expectation can lead to before a token is taken. -/
def Expect.weight : Expect → Nat
  | documentStart _ | documentContent | indentlessEntry | blockValue _ | pairEnd _ | flowValue _
  | flowNoValue _ => 1
  | pairValue _ => 2
  | pairKey _ => 3
  | documentEnd | blockNode | blockEntry _ | blockKey _ | flowEntry _ _ | flowKey _ _ | nothing => 0

namespace Walk

def load (w : Walk) : Nat :=
  -- A token outweighs every expectation that it can give rise to.
  4 * w.tokens.length + w.outer.foldr (fun e n => e.weight + n) 0

def weight (w : Walk) : Nat := w.load + w.expect.weight

variable (w : Walk) (e : Expect)

theorem load_later : (w.later e).load = w.load + e.weight := by
  simp only [load, later, List.foldr_cons]
  omega

theorem load_advance_le : w.advance.load ≤ w.load := by
  simp only [load, advance, List.length_drop]
  omega

theorem load_advance {t : Token} {ts : List Token} (h : w.tokens = t :: ts) :
    w.advance.load + 4 = w.load := by
  simp only [load, advance, h, List.drop_one, List.tail_cons, List.length_cons]
  omega

theorem weight_back : w.back.weight = w.load := by
  simp only [weight, load, back]
  cases w.outer with
  | nil => rfl
  | cons e outer =>
    simp only [List.headD_cons, List.drop_one, List.tail_cons, List.foldr_cons]
    omega

end Walk

namespace Step

variable {α β : Type} {w : Walk} {P : α → Walk → Prop} {Q : β → Walk → Prop} {bound : Nat}

/-- Whatever a step answers, it satisfies `P` together with the walk that is left. -/
def Yields (w : Walk) (a : Step α) (P : α → Walk → Prop) : Prop := ∀ x w', a w = .ok (x, w') → P x w'

theorem yields_throw (e : Fault) : Yields w (throw e) P := by
  intro x w' h
  cases h

theorem yields_pure {x : α} (h : P x w) : Yields w (pure x) P := by
  intro y w' hy
  cases hy
  exact h

theorem yields_modify {g : Walk → Walk} {P : PUnit → Walk → Prop} (h : P ⟨⟩ (g w)) :
    Yields w (modify g) P := by
  intro x w' hx
  cases hx
  exact h

theorem Yields.bind {a : Step α} {f : α → Step β} (ha : Yields w a P)
    (hf : ∀ x w', P x w' → Yields w' (f x) Q) : Yields w (a >>= f) Q := by
  intro y w'' h
  obtain ⟨x, w', hx, hy⟩ := stateT_bind_eq_ok.mp h
  exact hf x w' (ha x w' hx) y w'' hy

theorem yields_modify_bind {g : Walk → Walk} {f : PUnit → Step β} (h : Yields (g w) (f ⟨⟩) Q) :
    Yields w (modify g >>= f) Q :=
  h

theorem yields_get {f : Walk → Step β} (h : Yields w (f w) Q) : Yields w (get >>= f) Q :=
  h

theorem yields_lift_bind {x : Except Fault α} {f : α → Step β}
    (h : ∀ a, x = .ok a → Yields w (f a) Q) : Yields w (liftM x >>= f) Q := by
  intro y w'' hy
  obtain ⟨a, w', ha, hrest⟩ := stateT_bind_eq_ok.mp hy
  obtain ⟨hx, hw⟩ := stateT_lift_eq_ok.mp ha
  cases hw
  exact h a hx y w'' hrest

theorem yields_peek {f : Token → Step β} (h : ∀ t ts, w.tokens = t :: ts → Yields w (f t) Q) :
    Yields w (peek >>= f) Q := by
  have hpeek : Yields w peek fun t w' => w' = w ∧ ∃ ts, w.tokens = t :: ts := by
    intro t w' ht
    obtain ⟨tokens, fault?, expect, outer, handles⟩ := w
    cases tokens with
    | nil => cases ht
    | cons t ts =>
      cases ht
      exact ⟨rfl, ts, rfl⟩
  refine hpeek.bind fun t w' => ?_
  rintro ⟨rfl, ts, hts⟩
  exact h t ts hts

theorem yields_resolveTag (start mark : Mark) (handle : String) (rest : Tag) :
    Yields w (resolveTag start mark handle rest) fun _ w' => w' = w := by
  unfold resolveTag
  split
  · exact yields_pure rfl
  · refine yields_get ?_
    split
    · exact yields_pure rfl
    · exact yields_throw _

/-- Properties that are written take a token. -/
theorem yields_properties : Yields w properties fun r w' =>
    w'.load ≤ w.load ∧ ((r.1.isSome || r.2.1.isSome) = true → w'.load + 4 ≤ w.load) := by
  refine yields_peek fun first ts hts => ?_
  have hadvance := w.load_advance hts
  dsimp only
  split
  · refine yields_modify_bind (yields_peek fun second us hus => ?_)
    have hsecond := w.advance.load_advance hus
    split
    · refine yields_modify_bind ((yields_resolveTag _ _ _ _).bind fun tag w' => ?_)
      rintro rfl
      exact yields_pure ⟨by omega, fun _ => by omega⟩
    · exact yields_pure ⟨by omega, fun _ => by omega⟩
  · refine yields_modify_bind (yields_peek fun second us hus => ?_)
    have hsecond := w.advance.load_advance hus
    split
    · refine yields_modify_bind ((yields_resolveTag _ _ _ _).bind fun tag w' => ?_)
      rintro rfl
      exact yields_pure ⟨by omega, fun _ => by omega⟩
    · refine (yields_resolveTag _ _ _ _).bind fun tag w' => ?_
      rintro rfl
      exact yields_pure ⟨by omega, fun _ => by omega⟩
  · exact yields_pure ⟨Nat.le_refl _, by simp⟩

/-- A step that leaves a walk with little enough before it. -/
def Leaves (bound : Nat) (w : Walk) (a : Step α) : Prop := Yields w a fun _ w' => w'.weight + 4 ≤ bound

theorem leaves_await {e : Expect} {x : α} (h : w.load + e.weight + 4 ≤ bound) :
    Leaves bound w (do await e; return x) :=
  yields_modify_bind (yields_pure h)

theorem leaves_back {x : α} (h : w.load + 4 ≤ bound) : Leaves bound w (do back; return x) := by
  refine yields_modify_bind (yields_pure ?_)
  rw [Walk.weight_back]
  exact h

theorem leaves_close (event : Event) (h : w.load ≤ bound) : Leaves bound w (close event) := by
  refine yields_peek fun t ts ht => yields_modify_bind (leaves_back ?_)
  rw [w.load_advance ht]
  exact h

theorem leaves_enter {t : Token} {ts : List Token} {e : Expect} {x : α} (ht : w.tokens = t :: ts)
    (h : w.load + e.weight ≤ bound) : Leaves bound w (do advance; await e; return x) := by
  have hadvance := w.load_advance ht
  exact yields_modify_bind (leaves_await (by omega))

theorem leaves_node (block indentless : Bool) (h : w.load + 5 * indentless.toNat ≤ bound) :
    Leaves bound w (node block indentless) := by
  refine yields_peek fun t ts ht => ?_
  have hadvance := w.load_advance ht
  split
  · exact yields_modify_bind (leaves_back (by omega))
  · refine yields_properties.bind fun r w' => ?_
    rintro ⟨hle, hlt⟩
    obtain ⟨anchor?, tag?, start⟩ := r
    refine yields_peek fun t ts ht => ?_
    have hadvance := w'.load_advance ht
    have hbound : w'.load ≤ bound := by omega
    dsimp only
    split
    · -- The first entry stays where it is, so only the bound has room for what is expected now.
      refine leaves_await ?_
      simp only [Expect.weight, Bool.toNat_true] at h ⊢
      omega
    · exact yields_modify_bind (leaves_back (by omega))
    · exact leaves_enter ht hbound
    · exact leaves_enter ht hbound
    · exact leaves_enter ht hbound
    · exact leaves_enter ht hbound
    · split
      · have hproperty := hlt ‹_›
        exact leaves_back (by omega)
      · exact yields_throw _

theorem leaves_nodeUnless (ends : List TokenKind) (e : Expect) (block indentless : Bool) (mark : Mark)
    (h : w.load + e.weight + (4 + indentless.toNat) ≤ bound) :
    Leaves bound w (nodeUnless ends e block indentless mark) := by
  refine yields_peek fun t ts ht => ?_
  split
  · exact leaves_await (by omega)
  · refine yields_modify_bind (leaves_node block indentless ?_)
    have hflag := indentless.toNat_le
    rw [w.load_later]
    omega

theorem leaves_entry {t : Token} {ts : List Token} {ends : List TokenKind} {e : Expect}
    {block indentless : Bool} {mark : Mark} (ht : w.tokens = t :: ts)
    (h : w.load + e.weight + indentless.toNat ≤ bound) :
    Leaves bound w (do advance; nodeUnless ends e block indentless mark) := by
  have hadvance := w.load_advance ht
  exact yields_modify_bind (leaves_nodeUnless _ _ _ _ _ (by omega))

theorem yields_skip (kind : TokenKind) : Yields w (skip kind) fun _ w' => w'.load ≤ w.load := by
  refine yields_peek fun t ts ht => ?_
  split
  · exact yields_modify w.load_advance_le
  · exact yields_pure (Nat.le_refl _)

theorem yields_separator (first : Bool) (context : String) (opened : Mark) (problem : String) :
    Yields w (separator first context opened problem) fun _ w' => w'.load ≤ w.load := by
  unfold separator
  split
  · refine yields_peek fun t ts ht => ?_
    split
    · exact yields_modify w.load_advance_le
    · exact yields_throw _
  · exact yields_pure (Nat.le_refl _)

theorem length_directives_le {cutShort : Fault} {versioned : Bool} {handles handles' : List (String × Tag)}
    {ts ts' : List Token} (h : directives cutShort versioned handles ts = .ok (handles', ts')) :
    ts'.length ≤ ts.length := by
  induction ts generalizing versioned handles with
  | nil => cases h
  | cons t ts ih =>
    unfold directives at h
    split at h
    · obtain ⟨-, h⟩ := error_ite_eq_ok.mp h
      obtain ⟨-, h⟩ := error_ite_eq_ok.mp h
      exact Nat.le_succ_of_le (ih h)
    · obtain ⟨-, h⟩ := error_ite_eq_ok.mp h
      exact Nat.le_succ_of_le (ih h)
    · cases h
      exact Nat.le_refl _

theorem yields_takeDirectives : Yields w takeDirectives fun _ w' => w'.load ≤ w.load := by
  refine yields_get (yields_lift_bind fun r hr => ?_)
  have hlen : r.2.length ≤ w.tokens.length := length_directives_le hr
  intro x w' h
  cases h
  simp only [Walk.load]
  omega

theorem yields_enterDocument (implicit : Bool) :
    Yields w (enterDocument implicit) fun _ w' => w'.load ≤ w.load := by
  refine yields_modify ?_
  have hlen := (List.dropWhile_sublist (fun t : Token => t.kind = .documentEnd) (l := w.tokens)).length_le
  simp only [Walk.load]
  split <;> omega

theorem leaves_markedStart (mark : Mark) : Leaves (w.load + 3) w (markedStart mark) := by
  refine yields_takeDirectives.bind fun _ v hv => yields_peek fun t ts ht => ?_
  have hadvance := v.load_advance ht
  split
  · refine yields_modify_bind (yields_modify_bind (leaves_await ?_))
    rw [Walk.load_later]
    simp only [Expect.weight]
    omega
  · exact yields_throw _

theorem leaves_documentStart (implicit : Bool) : Leaves (w.load + 4) w (documentStart implicit) := by
  refine (yields_enterDocument implicit).bind fun _ v hv => yields_peek fun t ts ht => ?_
  have hmarked : Leaves (w.load + 4) v (markedStart t.start) := fun x v' h =>
    Nat.le_trans (leaves_markedStart t.start x v' h) (by omega)
  split
  · exact leaves_enter ht (Nat.le_add_right_of_le hv)
  · exact hmarked
  · exact hmarked
  · exact hmarked
  · split
    · refine yields_modify_bind (leaves_await ?_)
      rw [Walk.load_later]
      simp only [Expect.weight]
      omega
    · exact yields_throw _

theorem leaves_documentContent : Leaves (w.load + 4) w documentContent := by
  refine yields_peek fun t ts ht => ?_
  split
  iterate 5 exact leaves_back (Nat.le_refl _)
  exact leaves_node _ _ (by simp)

theorem leaves_blockEntry (opened : Mark) : Leaves (w.load + 3) w (blockEntry opened) := by
  refine yields_peek fun t ts ht => ?_
  split
  · exact leaves_entry ht (Nat.le_add_right _ 3)
  · exact leaves_close _ (by omega)
  · exact yields_throw _

theorem leaves_indentlessEntry : Leaves (w.load + 4) w indentlessEntry := by
  refine yields_peek fun t ts ht => ?_
  split
  · refine leaves_entry ht ?_
    simp only [Expect.weight, Bool.toNat_false]
    omega
  · exact leaves_back (Nat.le_refl _)

theorem leaves_blockKey (opened : Mark) : Leaves (w.load + 3) w (blockKey opened) := by
  refine yields_peek fun t ts ht => ?_
  split
  · refine leaves_entry ht ?_
    simp only [Expect.weight, Bool.toNat_true]
    omega
  · exact leaves_close _ (by omega)
  · exact yields_throw _

theorem leaves_blockValue (opened : Mark) : Leaves (w.load + 4) w (blockValue opened) := by
  refine yields_peek fun t ts ht => ?_
  split
  · refine leaves_entry ht ?_
    simp only [Expect.weight, Bool.toNat_true]
    omega
  · exact leaves_await (Nat.le_refl _)

theorem leaves_flowEntry (opened : Mark) (first : Bool) :
    Leaves (w.load + 3) w (flowEntry opened first) := by
  refine yields_peek fun t ts ht => ?_
  split
  · exact leaves_close _ (by omega)
  · refine (yields_separator _ _ _ _).bind fun _ v hv => yields_peek fun t ts ht => ?_
    split
    · exact leaves_enter ht (Nat.add_le_add_right hv 3)
    · exact leaves_close _ (by omega)
    · refine yields_modify_bind (leaves_node _ _ ?_)
      rw [Walk.load_later]
      simp only [Expect.weight, Bool.toNat_false]
      omega

theorem leaves_pairKey (opened : Mark) : Leaves (w.load + 6) w (pairKey opened) := by
  refine yields_peek fun t ts ht => leaves_nodeUnless _ _ _ _ _ ?_
  simp only [Expect.weight, Bool.toNat_false]
  omega

theorem leaves_pairValue (opened : Mark) : Leaves (w.load + 5) w (pairValue opened) := by
  refine (yields_skip _).bind fun _ v hv => yields_peek fun t ts ht => leaves_nodeUnless _ _ _ _ _ ?_
  simp only [Expect.weight, Bool.toNat_false]
  omega

theorem leaves_pairEnd (opened : Mark) : Leaves (w.load + 4) w (pairEnd opened) :=
  yields_peek fun _ _ _ => leaves_await (Nat.le_refl _)

theorem leaves_flowKey (opened : Mark) (first : Bool) : Leaves (w.load + 3) w (flowKey opened first) := by
  refine yields_peek fun t ts ht => ?_
  split
  · exact leaves_close _ (by omega)
  · refine (yields_separator _ _ _ _).bind fun _ v hv => yields_peek fun t ts ht => ?_
    have hadvance := v.load_advance ht
    split
    · refine yields_modify_bind (yields_peek fun t ts ht => leaves_nodeUnless _ _ _ _ _ ?_)
      simp only [Expect.weight, Bool.toNat_false]
      omega
    · exact leaves_close _ (by omega)
    · refine yields_modify_bind (leaves_node _ _ ?_)
      rw [Walk.load_later]
      simp only [Expect.weight, Bool.toNat_false]
      omega

theorem leaves_flowValue (opened : Mark) : Leaves (w.load + 4) w (flowValue opened) := by
  refine (yields_skip _).bind fun _ v hv => yields_peek fun t ts ht => leaves_nodeUnless _ _ _ _ _ ?_
  simp only [Expect.weight, Bool.toNat_false]
  omega

theorem leaves_flowNoValue (opened : Mark) : Leaves (w.load + 4) w (flowNoValue opened) :=
  yields_peek fun _ _ _ => leaves_await (Nat.le_refl _)

/-- Every step but the end of a document takes a token or fulfils an expectation. -/
theorem yields_next : Yields w next fun r w' => r.1 = .documentEnd ∨ w'.weight < w.weight := by
  have hless : ∀ {e : Expect} {a : Step (Item × Mark)}, w.expect = e →
      Leaves (w.load + e.weight + 3) w a →
      Yields w a fun r w' => r.1 = .documentEnd ∨ w'.weight < w.weight := by
    intro e a he ha r w' hr
    have hleft : w'.weight + 4 ≤ w.load + e.weight + 3 := ha r w' hr
    have hweight : w.weight = w.load + e.weight := by rw [Walk.weight, he]
    exact .inr (by omega)
  refine yields_get ?_
  cases he : w.expect with
  | documentStart => exact hless he (leaves_documentStart _)
  | documentContent => exact hless he leaves_documentContent
  | documentEnd =>
    refine yields_peek fun t _ _ => (yields_skip _).bind fun _ _ _ => yields_modify_bind ?_
    exact yields_pure (.inl rfl)
  | blockNode => exact hless he (leaves_node _ _ (Nat.le_add_right _ 3))
  | blockEntry => exact hless he (leaves_blockEntry _)
  | indentlessEntry => exact hless he leaves_indentlessEntry
  | blockKey => exact hless he (leaves_blockKey _)
  | blockValue => exact hless he (leaves_blockValue _)
  | flowEntry => exact hless he (leaves_flowEntry _ _)
  | pairKey => exact hless he (leaves_pairKey _)
  | pairValue => exact hless he (leaves_pairValue _)
  | pairEnd => exact hless he (leaves_pairEnd _)
  | flowKey => exact hless he (leaves_flowKey _ _)
  | flowValue => exact hless he (leaves_flowValue _)
  | flowNoValue => exact hless he (leaves_flowNoValue _)
  | nothing => exact yields_throw _

end Step

/-- The names of the anchors in a document with their numbers, and the numbers with the events that
they stand for, each with the latest first. -/
structure Anchors where
  numbers : List (String × Nat)
  targets : List (Nat × Nat)

namespace Anchors

def empty : Anchors := ⟨[], []⟩

/-- Anchor an event. Its number is the number of names that are known before, so a name that is
taken again leaves its new number to the next anchor too. -/
def add (a : Anchors) (name : String) (event : Nat) : Anchors :=
  let number := a.numbers.length
  { numbers := (name, number) :: a.numbers.filter (fun n => n.1 ≠ name)
    targets := (number, event) :: a.targets }

def number? (a : Anchors) (name : String) : Option Nat :=
  (a.numbers.find? (fun n => n.1 = name)).map (fun n => n.2)

def target? (a : Anchors) (number : Nat) : Option Nat :=
  (a.targets.find? (fun t => t.1 = number)).map (fun t => t.2)

end Anchors

/-- The events of the first document of a stream, its anchors, the fault that cut it short, if any,
and whether anything follows it. -/
structure Document where
  events : List (Event × Mark)
  anchors : Anchors
  fault? : Option Fault
  more : Bool

namespace Document

/-- Follow a walk to the end of its first document. -/
def collect (w : Walk) (anchors : Anchors) (events : List (Event × Mark)) : Document :=
  match h : Step.next w with
  | .error f => ⟨events, anchors, some f, false⟩
  | .ok ((.documentEnd, _), w') =>
    -- One more step tells whether the document is the only one.
    match Step.next w' with
    | .ok ((.streamEnd, _), _) => ⟨events, anchors, none, false⟩
    | _ => ⟨events, anchors, none, true⟩
  | .ok ((.streamEnd, mark), _) =>
    ⟨if events.isEmpty then [(.void, mark)] else events, anchors, none, false⟩
  | .ok ((.documentStart, _), w') =>
    have := (Step.yields_next _ _ h).resolve_left nofun
    collect w' anchors events
  | .ok ((.aliasTo name, mark), w') =>
    have := (Step.yields_next _ _ h).resolve_left nofun
    match anchors.number? name with
    | some n => collect w' anchors (events ++ [(.aliasTo n, mark)])
    | none => ⟨events, anchors, some (.unknownAnchor mark), false⟩
  | .ok ((.node anchor? event, mark), w') =>
    have := (Step.yields_next _ _ h).resolve_left nofun
    let anchors := anchor?.elim anchors (fun name => anchors.add name events.length)
    collect w' anchors (events ++ [(event, mark)])
termination_by w.weight

def ofText (s : String) : Document :=
  let (tokens, fault?) := Token.ofText s
  collect ⟨tokens.drop 1, fault?, .documentStart true, [], []⟩ .empty []

/-- The event that an alias stands for, or else the event itself. An alias of an anchor that was
given away meanwhile stands for the event that has it now. -/
def follow (d : Document) : Event × Mark → Event × Mark
  | (.aliasTo n, mark) =>
    ((d.anchors.target? n).bind (fun k => d.events[k]?)).getD (.aliasTo n, mark)
  | e => e

end Document

end Netlab.Yaml
