import Netlab.Format
import Netlab.Proofs.Decimal
import Netlab.Proofs.JsonGrammar

namespace Netlab

namespace Json

mutual

/-- The value that is written. -/
def datum : Json → Datum
  | str s => .string s
  | int n => .number (toString n.toNat).toList
  | arr items => .array (data items)
  | obj members => .object (memberData members)

def data : List Json → List Datum
  | [] => []
  | x :: xs => datum x :: data xs

def memberData : List (String × Json) → List (String × Datum)
  | [] => []
  | (k, v) :: ms => (k, datum v) :: memberData ms

end

theorem data_eq_map (xs : List Json) : data xs = xs.map datum := by
  induction xs with
  | nil => rfl
  | cons x xs ih => rw [data, ih, List.map_cons]

theorem memberData_eq_map (ms : List (String × Json)) :
    memberData ms = ms.map fun m => (m.1, datum m.2) := by
  induction ms with
  | nil => rfl
  | cons m ms ih => rw [memberData, ih, List.map_cons]

theorem exists_toDigits {n : Nat} (h : n ≠ 0) : ∃ c cs, Nat.toDigits 10 n = c :: cs ∧ c ≠ '0' := by
  induction n using Nat.strongRecOn with
  | ind n ih =>
    by_cases hlt : n < 10
    · refine ⟨n.digitChar, [], Nat.toDigits_of_lt_base hlt, ?_⟩
      have hdigit : ∀ m < 10, m ≠ 0 → m.digitChar ≠ '0' := by decide
      exact hdigit n hlt h
    · have hdiv : n / 10 ≠ 0 := by omega
      obtain ⟨c, cs, hcs, hc⟩ := ih (n / 10) (by omega) hdiv
      refine ⟨c, cs ++ [(n % 10).digitChar], ?_, hc⟩
      rw [Nat.toDigits_of_base_le (by decide) (Nat.not_lt.mp hlt), hcs, List.cons_append]

theorem whole_toString (n : Nat) : Whole (toString n).toList := by
  obtain ⟨c, cs, hs, hd, -⟩ := Text.exists_digits n
  by_cases hn : n = 0
  · subst hn
    exact .zero
  · obtain ⟨c', cs', hcs, hc⟩ := exists_toDigits hn
    rw [Nat.toString_eq_repr, Nat.toList_repr] at hs ⊢
    rw [hcs] at hs ⊢
    obtain ⟨rfl, rfl⟩ := List.cons.inj hs
    exact .more hc ⟨by simp, hd⟩

theorem number_toString (n : Nat) : Number (toString n).toList := by
  have h := Number.mk (.inl rfl) (whole_toString n) .none .none
  simpa using h

theorem blank_newline (depth : Nat) : Blank (newline depth).toList := by
  rw [newline, String.toList_ofList]
  intro c hc
  rcases List.mem_cons.mp hc with rfl | hc
  · rfl
  · rw [(List.mem_replicate.mp hc).2]
    rfl

theorem blank_nil : Blank [] := by
  intro c hc
  cases hc

section

variable (depth : Nat) {gap : List Char}

theorem separated_items (hg : Blank gap) (x : Json) (xs : List Json)
    (h : ∀ y ∈ x :: xs, Value (pretty depth y).toList y.datum) :
    Separated (Padded Value)
      ((newline depth).toList ++ ((pretty depth x).toList ++ ((prettyItems depth xs).toList ++ gap)))
      (data (x :: xs)) := by
  induction xs generalizing x with
  | nil =>
    have hx := h x List.mem_cons_self
    exact .one (.mk (blank_newline depth) hx hg)
  | cons y ys ih =>
    obtain ⟨hx, hys⟩ := List.forall_mem_cons.mp h
    have hfirst : Padded Value ((newline depth).toList ++ ((pretty depth x).toList ++ [])) x.datum :=
      .mk (blank_newline depth) hx blank_nil
    have hmore := Separated.more hfirst (ih y hys)
    simpa [prettyItems, data] using hmore

theorem keyed_member (hg : Blank gap) (k : String) {v : Json}
    (hv : Value (pretty depth v).toList v.datum) :
    Keyed (Padded Value)
      ((newline depth).toList ++
        ((quote k).toList ++ (": ".toList ++ ((pretty depth v).toList ++ gap))))
      (k, v.datum) := by
  have hkey : Padded quoting.Quoted ((newline depth).toList ++ ((quote k).toList ++ [])) k :=
    .mk (blank_newline depth) (quoted_quote k) blank_nil
  have hblank : Blank [' '] := by simp [Blank, isBlank]
  simpa using Keyed.mk hkey (.mk hblank hv hg)

theorem separated_members (hg : Blank gap) (m : String × Json) (ms : List (String × Json))
    (h : ∀ n ∈ m :: ms, Value (pretty depth n.2).toList n.2.datum) :
    Separated (Keyed (Padded Value))
      ((newline depth).toList ++ ((quote m.1).toList ++ (": ".toList ++ ((pretty depth m.2).toList ++
        ((prettyMembers depth ms).toList ++ gap)))))
      (memberData (m :: ms)) := by
  induction ms generalizing m with
  | nil =>
    have hm := h m List.mem_cons_self
    exact .one (keyed_member depth hg m.1 hm)
  | cons n ms ih =>
    obtain ⟨hm, hms⟩ := List.forall_mem_cons.mp h
    have hmore := Separated.more (keyed_member depth blank_nil m.1 hm) (ih n hms)
    simpa [prettyMembers, memberData] using hmore

end

/-- What is written is a value of the format. -/
theorem value_pretty (depth : Nat) (j : Json) : Value (pretty depth j).toList j.datum := by
  cases j with
  | str s =>
    rw [pretty, datum]
    exact .string (quoted_quote s)
  | int n =>
    rw [pretty, datum]
    exact .number (number_toString n.toNat)
  | arr items =>
    cases items with
    | nil =>
      have hvalue := Value.array (.none blank_nil)
      simpa [pretty, datum, data] using hvalue
    | cons x xs =>
      have h := separated_items (depth + 1) (blank_newline depth) x xs
        fun y hy => value_pretty (depth + 1) y
      have hvalue := Value.array (.some h)
      simpa [pretty, datum] using hvalue
  | obj members =>
    cases members with
    | nil =>
      have hvalue := Value.object (.none blank_nil)
      simpa [pretty, datum, memberData] using hvalue
    | cons m ms =>
      have h := separated_members (depth + 1) (blank_newline depth) m ms
        fun n hn => value_pretty (depth + 1) n.2
      have hvalue := Value.object (.some h)
      simpa [pretty, datum] using hvalue
termination_by sizeOf j
decreasing_by
  · have hlt := List.sizeOf_lt_of_mem hy
    rw [arr.sizeOf_spec]
    omega
  · have hlt := List.sizeOf_lt_of_mem hn
    rw [obj.sizeOf_spec]
    have hpair : sizeOf n.2 < sizeOf n := by
      obtain ⟨k, v⟩ := n
      simp only [Prod.mk.sizeOf_spec]
      omega
    omega

namespace Datum

variable {α κ : Type}

def text? : Datum → Option String
  | string s => some s
  | _ => none

def word? : Datum → Option UInt64
  | number spelling => (Text.readWord (String.ofList spelling)).toOption
  | _ => none

def literal? : Datum → Option Literal
  | string s => some (.str s)
  | d => d.word?.map .int

def items? (read : Datum → Option α) : Datum → Option (List α)
  | array items => items.mapM read
  | _ => none

def entries? (key : String → Option κ) (read : Datum → Option α) : Datum → Option (List (κ × α))
  | object members => members.mapM fun m => do return (← key m.1, ← read m.2)
  | _ => none

/-- The member of the given name. -/
def field? (d : Datum) (name : String) (read : Datum → Option α) : Option α :=
  match d with
  | object members => (members.lookup name).bind read
  | _ => none

/-- The member of the given name, if the object has one. -/
def option? (d : Datum) (name : String) (read : Datum → Option α) : Option (Option α) :=
  match d with
  | object members =>
    match members.lookup name with
    | none => some none
    | some v => (read v).map some
  | _ => none

theorem text?_str (s : String) : (Json.str s).datum.text? = some s := by
  rw [datum, text?]

theorem word?_int (n : UInt64) : (Json.int n).datum.word? = some n := by
  rw [datum, word?, String.ofList_toList, Text.readWord_toString]
  rfl

theorem literal?_json (l : Literal) : l.json.datum.literal? = some l := by
  cases l with
  | str s => rw [Literal.json, datum, literal?]
  | int n =>
    have hword := word?_int n
    rw [datum] at hword
    rw [Literal.json, datum, literal?, hword]
    · rfl
    · simp

theorem mapM_map {β : Type} {read : β → Option α} {write : α → β} (h : ∀ a, read (write a) = some a)
    (as : List α) : (as.map write).mapM read = some as := by
  induction as with
  | nil => rfl
  | cons a as ih => simp [h, ih]

theorem items?_arr {read : Datum → Option α} {write : α → Json}
    (h : ∀ a, read (write a).datum = some a) (as : List α) : items? read (arr (as.map write)).datum = some as := by
  rw [datum, items?, data_eq_map, List.map_map]
  exact mapM_map h as

theorem entries?_obj {key : String → Option κ} {read : Datum → Option α} {write : α → Json}
    (name : κ → String) (hk : ∀ k, key (name k) = some k) (h : ∀ a, read (write a).datum = some a)
    (es : List (κ × α)) :
    entries? key read (obj (es.map fun e => (name e.1, write e.2))).datum = some es := by
  rw [datum, entries?, memberData_eq_map, List.map_map]
  apply mapM_map
  intro e
  simp [hk, h]

theorem lookup_memberData (name : String) (ms : List (String × Json)) :
    (memberData ms).lookup name = (ms.lookup name).map datum := by
  induction ms with
  | nil => rfl
  | cons m ms ih =>
    rw [memberData, List.lookup_cons, List.lookup_cons, ih]
    split <;> rfl

theorem field?_obj (ms : List (String × Json)) (name : String) (read : Datum → Option α) :
    (obj ms).datum.field? name read = (ms.lookup name).bind fun j => read j.datum := by
  rw [datum, field?, lookup_memberData, Option.bind_map]
  rfl

theorem option?_obj (ms : List (String × Json)) (name : String) (read : Datum → Option α) :
    (obj ms).datum.option? name read =
      (ms.lookup name).elim (some none) fun j => (read j.datum).map some := by
  rw [datum, option?, lookup_memberData]
  cases ms.lookup name <;> rfl

theorem lookup_toList (write : α → Json) (value : Option α) (key name : String) :
    (value.map fun a => (key, write a)).toList.lookup name =
      if name == key then value.map write else none := by
  cases value with
  | none => simp
  | some a =>
    rw [Option.map_some, Option.toList_some, List.lookup_cons, List.lookup_nil]
    cases name == key <;> rfl

theorem elim_map {read : Datum → Option α} {write : α → Json} (h : ∀ a, read (write a).datum = some a)
    (value : Option α) :
    (value.map write).elim (some none) (fun j => (read j.datum).map some) = some value := by
  cases value with
  | none => rfl
  | some a => simp [h]

end Datum

end Json

open Json

def Container.ofDatum? (d : Datum) : Option Container := do
  return {
    name := ← d.field? "name" Datum.text?
    ip := ← d.field? "ip" Datum.text?
    image := ← d.field? "image" Datum.text?
    mac := ← d.field? "mac" Datum.text?
    env := ← d.field? "env" (Datum.entries? some Datum.literal?)
    ports := ← d.field? "ports" (Datum.items? Datum.literal?)
    portBindings := ← d.field? "port_bindings"
      (Datum.entries? (fun k => (Text.readWord k).toOption) Datum.word?)
    cmd := ← d.field? "cmd" (Datum.items? Datum.literal?) }

def Link.ofDatum? (d : Datum) : Option Link := do
  return {
    name := ← d.field? "name" Datum.text?
    src := ← d.field? "src" Datum.text?
    dst := ← d.field? "dst" Datum.text?
    port1 := ← d.option? "port1" Datum.word?
    port2 := ← d.option? "port2" Datum.word?
    cls := ← d.option? "cls" Datum.text?
    delay := ← d.option? "delay" Datum.text?
    bw := ← d.option? "bw" Datum.word? }

/-- The call that an object stands for, as its operation tells. -/
def Call.ofDatum? (d : Datum) : Option Call := do
  match ← d.field? "op" Datum.text? with
  | "add_controller" => return .addController (← d.field? "name" Datum.text?)
  | "add_remote_controller" =>
    return .addRemoteController (← d.field? "name" Datum.text?) (← d.field? "host" Datum.text?)
      (← d.field? "port" Datum.word?)
  | "add_container" => return .addContainer (← Container.ofDatum? d)
  | "add_switch" => return .addSwitch (← d.field? "name" Datum.text?)
  | "add_link" => return .addLink (← Link.ofDatum? d)
  | "add_intent" =>
    return .addIntent (← d.field? "src" Datum.text?) (← d.field? "dst" Datum.text?)
  | "start" => return .start
  | "ping" => return .ping (← d.field? "hosts" (Datum.items? Datum.text?))
  | "stop" => return .stop
  | _ => none

def Plan.ofDatum? (d : Datum) : Option Plan := do
  return ⟨← d.field? "calls" (Datum.items? Call.ofDatum?)⟩

open Datum

theorem Container.ofDatum?_json (c : Container) :
    Container.ofDatum? (Call.addContainer c).json.datum = some c := by
  have henv : entries? some literal? (obj (c.env.map fun e => (e.1, e.2.json))).datum = some c.env :=
    entries?_obj id (fun _ => rfl) literal?_json c.env
  have hkey : ∀ k : UInt64, (Text.readWord (toString k.toNat)).toOption = some k := by
    intro k
    rw [Text.readWord_toString]
    rfl
  have hbindings : entries? (fun k => (Text.readWord k).toOption) word?
      (obj (c.portBindings.map fun e => (toString e.1.toNat, .int e.2))).datum =
        some c.portBindings :=
    entries?_obj (fun k => toString k.toNat) hkey word?_int c.portBindings
  have hports := items?_arr literal?_json c.ports
  have hcmd := items?_arr literal?_json c.cmd
  simp [Container.ofDatum?, Call.json, Call.members, field?_obj, List.lookup_cons, text?_str, henv,
    hports, hcmd, hbindings, -Nat.toString_eq_repr]

theorem Link.ofDatum?_json (l : Link) : Link.ofDatum? (Call.addLink l).json.datum = some l := by
  simp [Link.ofDatum?, Call.json, Call.members, field?_obj, option?_obj, List.lookup_cons,
    List.lookup_append, text?_str, lookup_toList, elim_map word?_int, elim_map text?_str]

theorem Call.ofDatum?_json (call : Call) : Call.ofDatum? call.json.datum = some call := by
  have hop : call.json.datum.field? "op" text? = some call.op := by
    rw [Call.json, field?_obj, List.lookup_cons_self, Option.bind_some, text?_str]
  cases call with
  | addContainer c =>
    simp only [Call.ofDatum?, hop, Call.op, Container.ofDatum?_json]
    rfl
  | addLink l =>
    simp only [Call.ofDatum?, hop, Call.op, Link.ofDatum?_json]
    rfl
  | ping hosts =>
    have hhosts := items?_arr text?_str hosts
    simp [Call.ofDatum?, Call.json, Call.members, Call.op, field?_obj, List.lookup_cons, text?_str,
      hhosts]
  | _ =>
    simp [Call.ofDatum?, Call.json, Call.members, Call.op, field?_obj, List.lookup_cons, text?_str,
      word?_int]

theorem Plan.ofDatum?_json (p : Plan) : Plan.ofDatum? p.json.datum = some p := by
  have hcalls := items?_arr Call.ofDatum?_json p.calls
  simp [Plan.ofDatum?, Plan.json, field?_obj, hcalls]

/-- The text of a plan is a value and a line feed. It cannot be read as another value, and the plan is
found in it. -/
theorem Plan.json_decodes (p : Plan) :
    ∃ (text : String) (d : Datum), Format.json.render p = .ok (text ++ "\n") ∧
      Json.Value text.toList d ∧ Plan.ofDatum? d = some p ∧
      ∀ e, Padded Json.Value (text ++ "\n").toList e → e = d := by
  refine ⟨p.json.pretty 0, p.json.datum, rfl, value_pretty 0 p.json, Plan.ofDatum?_json p, ?_⟩
  intro e he
  have hblank : Blank "\n".toList := by simp [Blank, isBlank]
  have hend : AtEnd [] := by simp [AtEnd, Stops]
  have hd : Padded Json.Value ([] ++ ((p.json.pretty 0).toList ++ "\n".toList)) p.json.datum :=
    .mk blank_nil (value_pretty 0 p.json) hblank
  rw [List.nil_append, ← String.toList_append] at hd
  exact (unambiguous_element he hd hend hend rfl).1

end Netlab
