import Netlab.Proofs.Relocation
import Netlab.Proofs.WellFormed

namespace Netlab

section

variable (f : Position → Position)

def Value.move (v : Value) : Value := { v with pos := f v.pos }

/-- The values of a host stand elsewhere. -/
def Host.move (h : Host) : Host :=
  { h with
    ports := h.ports.map (Value.move f)
    env := h.env.map (Prod.map id (Value.move f))
    cmd := h.cmd.map (Value.move f) }

def Action.move : Action → Action
  | .controller name => .controller (name.move f)
  | .host h => .host (h.move f)
  | a => a

def Statement.move (s : Statement) : Statement := ⟨f s.pos, s.action.move f⟩

def Program.move (p : Program) : Program := ⟨p.statements.map (Statement.move f)⟩

end

section

variable {α β γ δ : Type} {f : Position → Position}

theorem moved_bind {m : α → β} {n : γ → δ} {x : Except ParseError α} {x' : Except ParseError β}
    {k : α → Except ParseError γ} {k' : β → Except ParseError δ} (hx : x' = moved f m x)
    (hk : ∀ a, k' (m a) = moved f n (k a)) : x' >>= k' = moved f n (x >>= k) := by
  subst hx
  cases x with
  | error e => rfl
  | ok a => exact hk a

theorem moved_mapM {m : α → β} {n : γ → δ} {g : α → Except ParseError γ} {g' : β → Except ParseError δ}
    (hg : ∀ a, g' (m a) = moved f n (g a)) (xs : List α) :
    (xs.map m).mapM g' = moved f (List.map n) (xs.mapM g) := by
  induction xs with
  | nil => rfl
  | cons x xs ih =>
    rw [List.map_cons, List.mapM_cons, List.mapM_cons]
    exact moved_bind (hg x) fun _ => moved_bind ih fun _ => rfl

theorem Token.int_move (t : Token) : (t.move f).int = moved f id t.int := by
  have htext : (t.move f).text = t.text := rfl
  rw [int, htext, int]
  cases Text.readWord t.text <;> rfl

theorem Token.value_move (t : Token) : (t.move f).value = moved f (Value.move f) t.value := by
  have hkind : (t.move f).kind = t.kind := rfl
  rw [value, hkind, value]
  split
  · rfl
  · rfl
  · rw [Token.int_move]
    cases t.int <;> rfl
  · rfl

end

namespace Slots

section

variable {α β γ δ : Type} (f : Position → Position)

/-- Of moved children, `r'` makes what `r` makes of the children, moved. -/
def Moves (m : α → β) (r : Slots α) (r' : Slots β) : Prop :=
  ∀ cs, r' (cs.map (Child.move f)) = moved f (Prod.map m (List.map (Child.move f))) (r cs)

variable {f} {owner : Tree}

theorem moves_pure {m : α → β} {a : α} {b : β} (h : m a = b) : Moves f m (pure a) (pure b) :=
  fun cs => congrArg (fun b => Except.ok (b, cs.map (Child.move f))) h.symm

theorem moves_bind {m : α → β} {n : γ → δ} {r : Slots α} {r' : Slots β} {k : α → Slots γ}
    {k' : β → Slots δ} (hr : Moves f m r r') (hk : ∀ a, Moves f n (k a) (k' (m a))) :
    Moves f n (r >>= k) (r' >>= k') :=
  fun cs => moved_bind (hr cs) fun x => hk x.1 x.2

theorem moves_lift {m : α → β} {x : Except ParseError α} {x' : Except ParseError β}
    (h : x' = moved f m x) : Moves f m (StateT.lift x) (StateT.lift x') :=
  fun _ => moved_bind h fun _ => rfl

theorem moves_fault (m : α → β) (cause : ParseFault) :
    Moves f m (fault owner cause) (fault (owner.move f) cause) := fun _ => rfl

theorem moves_next : Moves f (Child.move f) (next owner) (next (owner.move f)) := by
  intro cs
  cases cs <;> rfl

theorem moves_token : Moves f (Token.move f) (token owner) (token (owner.move f)) := by
  refine moves_bind moves_next fun c => ?_
  cases c with
  | token t => exact moves_pure rfl
  | absent | node => exact moves_fault _ _

theorem moves_token? : Moves f (Option.map (Token.move f)) (token? owner) (token? (owner.move f)) := by
  refine moves_bind moves_next fun c => ?_
  cases c with
  | token | absent => exact moves_pure rfl
  | node => exact moves_fault _ _

theorem moves_listing (l : Listing) :
    Moves f (Tree.move f) (listing owner l) (listing (owner.move f) l) := by
  refine moves_bind moves_next fun c => ?_
  cases c with
  | token => exact moves_fault _ _
  | absent => exact moves_pure rfl
  | node rule pos children =>
    rw [Child.move_node]
    by_cases hr : rule = l.rule
    · simp only [hr, if_true]
      exact moves_pure rfl
    · simp only [hr, if_false]
      exact moves_fault _ _

theorem moves_value : Moves f (Value.move f) (value owner) (value (owner.move f)) :=
  moves_bind moves_token fun t => moves_lift t.value_move

theorem moves_text : Moves f id (text owner) (text (owner.move f)) :=
  moves_bind moves_token fun _ => moves_pure rfl

theorem moves_int : Moves f id (int owner) (int (owner.move f)) :=
  moves_bind moves_token fun t => moves_lift t.int_move

theorem moves_text? : Moves f id (text? owner) (text? (owner.move f)) := by
  refine moves_bind moves_token? fun t? => ?_
  cases t? <;> exact moves_pure rfl

theorem moves_int? : Moves f id (int? owner) (int? (owner.move f)) := by
  refine moves_bind moves_token? fun t? => ?_
  cases t? with
  | none => exact moves_pure rfl
  | some t => exact moves_bind (moves_lift t.int_move) fun _ => moves_pure rfl

theorem whole_move (owner : Tree) {m : α → β} {r : Slots α} {r' : Slots β} (h : Moves f m r r') :
    whole r' (owner.move f) = moved f m (whole r owner) := by
  refine moved_bind (h owner.children) fun ⟨_, rest⟩ => ?_
  cases rest <;> rfl

theorem childText_move (c : Child) :
    childText (owner.move f) (c.move f) = moved f id (childText owner c) := by
  cases c <;> rfl

theorem childValue_move (c : Child) :
    childValue (owner.move f) (c.move f) = moved f (Value.move f) (childValue owner c) := by
  cases c with
  | token t => exact t.value_move
  | absent | node => rfl

theorem childPair_move {m : α → β} {n : γ → δ} {key : Tree → Slots α} {key' : Tree → Slots β}
    {item : Tree → Slots γ} {item' : Tree → Slots δ}
    (hkey : ∀ owner : Tree, Moves f m (key owner) (key' (owner.move f)))
    (hitem : ∀ owner : Tree, Moves f n (item owner) (item' (owner.move f))) (missing : ParseFault)
    (c : Child) :
    childPair missing key' item' (owner.move f) (c.move f) =
      moved f (Prod.map m n) (childPair missing key item owner c) := by
  cases c with
  | token | absent => rfl
  | node rule pos children =>
    rw [Child.move_node]
    exact whole_move ⟨rule, pos, children⟩
      (moves_bind (hkey _) fun _ => moves_bind (hitem _) fun _ => moves_pure rfl)

theorem moves_each {m : α → β} {g : Child → Except ParseError α} {g' : Child → Except ParseError β}
    (hg : ∀ c : Child, g' (c.move f) = moved f m (g c)) (cs : List Child) :
    Moves f (List.map m) (each g cs) (each g' (cs.map (Child.move f))) :=
  moves_lift (moved_mapM hg cs)

theorem moves_names : Moves f id (names owner) (names (owner.move f)) := by
  intro cs
  have htext : ∀ c : Child, childText (owner.move f) (c.move f) = moved f id (childText owner c) :=
    childText_move
  have heach := moves_each htext cs []
  rw [List.map_id_fun] at heach
  exact heach

theorem moves_items {m : α → β} {l : Listing} {g : Tree → Child → Except ParseError α}
    {g' : Tree → Child → Except ParseError β}
    (hg : ∀ (tree : Tree) (c : Child), g' (tree.move f) (c.move f) = moved f m (g tree c)) :
    Moves f (List.map m) (do let tree ← listing owner l; each (g tree) tree.children)
      (do let tree ← listing (owner.move f) l; each (g' tree) tree.children) :=
  moves_bind (moves_listing l) fun tree => moves_each (hg tree) tree.children

theorem moves_array : Moves f (List.map (Value.move f)) (array owner) (array (owner.move f)) :=
  moves_items fun _ => childValue_move

theorem moves_object :
    Moves f (List.map (Prod.map id (Value.move f))) (object owner) (object (owner.move f)) :=
  moves_items fun _ => childPair_move (fun _ => moves_text) (fun _ => moves_value) _

theorem moves_intMap : Moves f id (intMap owner) (intMap (owner.move f)) := by
  have h : Moves f (List.map (Prod.map id id)) (intMap owner) (intMap (owner.move f)) :=
    moves_items fun _ => childPair_move (fun _ => moves_int) (fun _ => moves_int) _
  rwa [Prod.map_id, List.map_id_fun] at h

theorem moves_host : Moves f (Host.move f) (host owner) (host (owner.move f)) :=
  moves_bind moves_text fun _ => moves_bind moves_text? fun _ => moves_bind moves_text fun _ =>
    moves_bind moves_text? fun _ => moves_bind moves_array fun _ => moves_bind moves_intMap fun _ =>
      moves_bind moves_object fun _ => moves_bind moves_array fun _ => moves_pure rfl

theorem moves_link : Moves f id (link owner) (link (owner.move f)) :=
  moves_bind moves_text fun _ => moves_bind moves_text fun _ => moves_bind moves_text fun _ =>
    moves_bind moves_int? fun _ => moves_bind moves_int? fun _ => moves_bind moves_text? fun _ =>
      moves_bind moves_text? fun _ => moves_bind moves_int? fun _ => moves_pure rfl

theorem moves_action : Moves f (Action.move f) (action owner) (action (owner.move f)) := by
  have hrule : (owner.move f).rule = owner.rule := rfl
  unfold action
  rw [hrule]
  split
  · exact moves_bind moves_value fun _ => moves_pure rfl
  · exact moves_bind moves_text fun _ => moves_bind moves_text fun _ =>
      moves_bind moves_int fun _ => moves_pure rfl
  · exact moves_bind moves_host fun _ => moves_pure rfl
  · exact moves_bind moves_names fun _ => moves_pure rfl
  · exact moves_bind moves_link fun _ => moves_pure rfl
  · exact moves_bind moves_names fun _ => moves_pure rfl
  · exact moves_pure rfl
  · exact moves_pure rfl
  · exact moves_bind moves_names fun _ => moves_pure rfl
  · exact moves_fault _ _

end

end Slots

section

variable (f : Position → Position)

theorem Statement.ofTree_move (t : Tree) :
    ofTree (t.move f) = moved f (Statement.move f) (ofTree t) :=
  moved_bind (Slots.whole_move t Slots.moves_action) fun _ => rfl

theorem Program.ofTrees_move (ts : List Tree) :
    ofTrees (ts.map (Tree.move f)) = moved f (Program.move f) (ofTrees ts) :=
  moved_bind (moved_mapM (Statement.ofTree_move f) ts) fun _ => rfl

end

namespace Program

/-- What tokens are read as, places and all. -/
def ofTokens (ts : List Token) : Except ParseError Program :=
  Tree.ofTokens ts >>= Program.ofTrees

theorem ofText_eq {s : String} {ts : List Token} (h : Token.ofText s = .ok ts) :
    ofText s = (ofTokens ts).mapError .parse := by
  rw [ofText, h, ofTokens]
  change ((Tree.ofTokens ts).mapError Error.parse >>= fun trees =>
    (ofTrees trees).mapError Error.parse) = _
  cases Tree.ofTokens ts <;> rfl

theorem ofTokens_move (f : Position → Position) {ts : List Token} (h : ∃ t ∈ ts, t.kind = .eof) :
    ofTokens (ts.map (Token.move f)) = moved f (Program.move f) (ofTokens ts) :=
  moved_bind (Tree.ofTokens_move f h) (ofTrees_move f)

end Program

theorem Token.exists_eof {s : String} {ts : List Token} (h : Token.ofText s = .ok ts) :
    ∃ t ∈ ts, t.kind = .eof := by
  obtain ⟨us, stop, rfl, -⟩ := (Token.ofText_eq_ok.mp h).exists_snoc
  exact ⟨_, List.mem_append_right us List.mem_cons_self, rfl⟩

end Netlab
