import Netlab.Proofs.Decimal
import Netlab.Proofs.Quoting
import Netlab.Proofs.Spelling

namespace Netlab.Python

theorem exists_digits_int (n : UInt64) :
    ∃ c cs, (int n).toList = c :: cs ∧ ∀ d ∈ c :: cs, d.isDigit = true := by
  obtain ⟨c, cs, hs, hd, -⟩ := Text.exists_digits n.toNat
  exact ⟨c, cs, hs, hd⟩

theorem int_injective {m n : UInt64} (h : int m = int n) : m = n := by
  have hread := Text.readWord_toString m
  rw [show toString m.toNat = toString n.toNat from h, Text.readWord_toString n] at hread
  cases hread
  rfl

theorem unambiguous_int : Unambiguous (Writes int) (Stops Char.isDigit) := by
  apply Unambiguous.run
  · rintro _ n rfl
    obtain ⟨c, cs, hs, hd⟩ := exists_digits_int n
    rw [hs]
    exact hd
  · rintro _ m n rfl heq
    exact int_injective (String.toList_inj.mp heq)

theorem head?_quote (s : String) (r : List Char) : ((quote s).toList ++ r).head? = some '"' := by
  rw [quote, String.toList_ofList]
  rfl

theorem head?_int {c : Char} (hc : c.isDigit = false) (n : UInt64) (r : List Char) :
    ((int n).toList ++ r).head? ≠ some c := by
  obtain ⟨d, ds, hs, hd⟩ := exists_digits_int n
  rw [hs]
  intro h
  cases h
  have hdigit := hd c List.mem_cons_self
  rw [hc] at hdigit
  cases hdigit

/-- Strings have quotes and numbers do not. -/
theorem unambiguous_literal : Unambiguous (Writes literal) (Stops Char.isDigit) := by
  apply Unambiguous.of_writes
  intro a b r s hr hs heq
  have hhead := congrArg List.head? heq
  cases a with
  | str a =>
    cases b with
    | str b =>
      obtain ⟨rfl, hrest⟩ := unambiguous_quote.eq trivial trivial heq
      exact ⟨rfl, hrest⟩
    | int n => exact absurd (hhead.symm.trans (head?_quote a r)) (head?_int (by decide) n s)
  | int m =>
    cases b with
    | str b => exact absurd (hhead.trans (head?_quote b s)) (head?_int (by decide) m r)
    | int n =>
      obtain ⟨rfl, hrest⟩ := unambiguous_int.eq hr hs heq
      exact ⟨rfl, hrest⟩

theorem unambiguous_node : Unambiguous (Writes node) anyText := by
  apply Unambiguous.of_writes
  intro a b r s _ _ heq
  simp only [node, String.toList_append, List.append_assoc] at heq
  obtain ⟨rfl, hrest⟩ := unambiguous_quote.behind trivial trivial heq
  exact ⟨rfl, List.append_cancel_left hrest⟩

section

variable {α β : Type}

theorem not_singleton_prefix {c : Char} {cs : List Char} (h : cs.head? ≠ some c) : ¬[c] <+: cs := by
  rintro ⟨ds, rfl⟩
  exact h rfl

theorem unambiguous_list {write : α → String} (h : Unambiguous (Writes write) (Stops Char.isDigit))
    (hhead : ∀ a r, ((write a).toList ++ r).head? ≠ some ']') :
    Unambiguous (Writes fun as : List α => list (as.map write)) anyText := by
  apply h.bracketed
  · exact stops_cons (by decide)
  · exact stops_cons (by decide)
  · intro a r
    exact not_singleton_prefix (hhead a r)
  · simp

theorem unambiguous_dict {key : α → String} {value : β → String}
    (hkey : Unambiguous (Writes key) (Stops Char.isDigit))
    (hvalue : Unambiguous (Writes value) (Stops Char.isDigit))
    (hhead : ∀ a r, ((key a).toList ++ r).head? ≠ some '\x7d') :
    Unambiguous (Writes fun es : List (α × β) => dict (es.map fun e => (key e.1, value e.2)))
      anyText := by
  have hentry : Unambiguous (Writes fun e : α × β => key e.1 ++ ": " ++ value e.2)
      (Stops Char.isDigit) := hkey.pair hvalue (stops_cons (by decide))
  have hentries : Unambiguous (Writes fun es : List (α × β) =>
      "\x7b" ++ String.intercalate ", " (es.map fun e => key e.1 ++ ": " ++ value e.2) ++ "\x7d")
      anyText := by
    apply hentry.bracketed
    · exact stops_cons (by decide)
    · exact stops_cons (by decide)
    · intro e r
      simp only [String.toList_append, List.append_assoc]
      exact not_singleton_prefix (hhead e.1 _)
    · simp
  apply Unambiguous.of_writes
  intro es fs r s _ _ heq
  simp only [dict, List.map_map] at heq
  exact hentries.eq trivial trivial heq

end

theorem unambiguous_literals :
    Unambiguous (Writes fun ls : List Literal => list (ls.map literal)) anyText := by
  apply unambiguous_list unambiguous_literal
  intro l r
  cases l with
  | str s => exact ne_of_eq_of_ne (head?_quote s r) (by decide)
  | int n => exact head?_int (by decide) n r

theorem unambiguous_nodes :
    Unambiguous (Writes fun names : List String => list (names.map node)) anyText := by
  apply unambiguous_list unambiguous_node.anywhere
  intro name r
  simp only [node, String.toList_append, List.append_assoc]
  exact fun hhead => absurd hhead (by simp)

theorem unambiguous_env :
    Unambiguous (Writes fun es : List (String × Literal) =>
      dict (es.map fun e => (quote e.1, literal e.2))) anyText := by
  apply unambiguous_dict unambiguous_quote.anywhere unambiguous_literal
  intro s r
  exact ne_of_eq_of_ne (head?_quote s r) (by decide)

theorem unambiguous_portBindings :
    Unambiguous (Writes fun es : List (UInt64 × UInt64) =>
      dict (es.map fun e => (int e.1, int e.2))) anyText :=
  unambiguous_dict unambiguous_int unambiguous_int (head?_int (by decide))

def NameText (ts : List Char) (cls : String) : Prop := isName cls = true ∧ ts = cls.toList

theorem isNameChar_of_isName {cls : String} (h : isName cls = true) :
    ∀ c ∈ cls.toList, isNameChar c = true := by
  unfold isName at h
  split at h
  · cases h
  · rename_i c cs hs
    obtain ⟨hc, hcs⟩ := Bool.and_eq_true_iff.mp h
    rw [hs]
    exact List.forall_mem_cons.mpr ⟨Cursor.isNameChar_of_isNameStart hc, List.all_eq_true.mp hcs⟩

theorem unambiguous_name : Unambiguous NameText (Stops isNameChar) := by
  apply Unambiguous.run
  · rintro _ cls ⟨hname, rfl⟩
    exact isNameChar_of_isName hname
  · rintro _ cls cls' ⟨-, rfl⟩ ⟨-, heq⟩
    exact String.toList_inj.mp heq

section

variable {α : Type}

def option (key : String) (write : α → String) (value : Option α) : String :=
  (value.map fun a => ", " ++ keywordArg key (write a)).getD ""

theorem optional_option {key : String} {write : α → String} {phrase : List Char → α → Prop}
    {value : Option α} (h : ∀ a ∈ value, phrase (write a).toList a) :
    Optional (", " ++ key ++ "=").toList phrase (option key write value).toList value := by
  cases value with
  | none => exact .none
  | some a =>
    have hsome : Optional (", " ++ key ++ "=").toList phrase
        ((", " ++ key ++ "=").toList ++ (write a).toList) (some a) := .some (h a rfl)
    simpa [option, keywordArg] using hsome

/-- What may stand behind an optional argument: the next one, or the end of the arguments. -/
def Behind (key : String) (r : List Char) : Prop :=
  Stops isNameChar r ∧ ¬(", " ++ key ++ "=").toList <+: r

theorem option_eq {phrase : List Char → α → Prop} {key : String} {write : α → String}
    {a b : Option α} {r s : List Char} (h : Unambiguous phrase (Stops isNameChar))
    (ha : ∀ v ∈ a, phrase (write v).toList v) (hb : ∀ v ∈ b, phrase (write v).toList v)
    (hr : Behind key r) (hs : Behind key s)
    (heq : (option key write a).toList ++ r = (option key write b).toList ++ s) : a = b ∧ r = s :=
  h.optional _ (optional_option ha) (optional_option hb) hr hs heq

theorem behind_parenthesis (key : String) (r : List Char) : Behind key (")".toList ++ r) := by
  refine ⟨stops_cons (by decide) r, ?_⟩
  simp

theorem Behind.option {key other : String} {write : α → String} {r : List Char} (h : Behind key r)
    (hkey : ∀ r, ¬(", " ++ key ++ "=").toList <+: (", " ++ other ++ "=").toList ++ r)
    (value : Option α) : Behind key ((option other write value).toList ++ r) := by
  cases value with
  | none => exact h
  | some a =>
    have htext : (Python.option other write (some a)).toList ++ r =
        (", " ++ other ++ "=").toList ++ ((write a).toList ++ r) := by
      simp [Python.option, keywordArg]
    rw [htext]
    refine ⟨?_, hkey _⟩
    simp only [String.toList_append, List.append_assoc]
    exact stops_cons (by decide) _

theorem flatMap_option (key : String) (write : α → String) (value : Option α) :
    ((value.map fun a => keywordArg key (write a)).toList.map String.toList).flatMap
        (", ".toList ++ ·) = (option key write value).toList := by
  cases value <;> simp [option]

end

def target? : Call → Option String
  | .addContainer c => some c.name
  | .addSwitch name => some name
  | _ => none

/-- A call is written as the name of its operation, behind the node that it is assigned to. -/
theorem exists_callText (call : Call) :
    ∃ target, Optional "nodes[".toList (Writes fun name => quote name ++ "]" ++ " = ") target
        (target? call) ∧
      "    ".toList ++ (target ++ ("context.".toList ++ (call.op.toList ++ "(".toList))) <+:
        (callText call).toList := by
  cases call with
  | addContainer c =>
    have hassign : " = context.".toList = " = ".toList ++ "context.".toList := by decide
    refine ⟨_, .some rfl, ?_⟩
    simp only [callText, callLines, node, String.intercalate_cons_cons, String.toList_append, hassign,
      List.append_assoc, List.prefix_append_right_inj, List.prefix_append]
  | addSwitch name =>
    refine ⟨_, .some rfl, ?_⟩
    simp only [callText, callLines, node, invoke, String.intercalate_singleton, String.toList_append,
      List.append_assoc, List.prefix_append_right_inj, List.prefix_append]
  | _ =>
    refine ⟨[], .none, ?_⟩
    simp only [callText, callLines, invoke, String.intercalate_singleton, String.toList_append,
      List.append_assoc, List.nil_append, List.prefix_append_right_inj, List.prefix_append]

theorem op_eq_of_callText {a b : Call} {r s : List Char}
    (h : (callText a).toList ++ r = (callText b).toList ++ s) : a.op = b.op := by
  have hassign : Unambiguous (Writes fun name => quote name ++ "]" ++ " = ") anyText := by
    apply Unambiguous.of_writes
    intro a b r s _ _ heq
    simp only [String.toList_append, List.append_assoc] at heq
    obtain ⟨rfl, hrest⟩ := unambiguous_quote.eq trivial trivial heq
    exact ⟨rfl, List.append_cancel_left (List.append_cancel_left hrest)⟩
  have hop : Unambiguous (fun ts op => ∃ call : Call, op = call.op ∧ ts = op.toList)
      (Stops (· != '(')) := by
    apply Unambiguous.run
    · rintro _ _ ⟨call, rfl, rfl⟩
      cases call <;> simp [Call.op]
    · rintro _ op op' ⟨-, -, rfl⟩ ⟨-, -, heq⟩
      exact String.toList_inj.mp heq
  obtain ⟨target, htarget, more, hmore⟩ := exists_callText a
  obtain ⟨target', htarget', more', hmore'⟩ := exists_callText b
  rw [← hmore, ← hmore'] at h
  simp only [List.append_assoc] at h
  have hcontext : ∀ r, ¬"nodes[".toList <+: "context.".toList ++ r := by simp
  obtain ⟨-, hcall⟩ := hassign.optional _ htarget htarget' ⟨trivial, hcontext _⟩ ⟨trivial, hcontext _⟩
    (List.append_cancel_left h)
  exact (hop ⟨a, rfl, rfl⟩ ⟨b, rfl, rfl⟩ (stops_cons (by decide) _) (stops_cons (by decide) _)
    (List.append_cancel_left hcall)).1

/-- The options of a link stand behind its three names, in a fixed order. -/
theorem intercalate_linkArgs (l : Link) :
    (String.intercalate ", " (linkArgs l)).toList =
      (keywordArg "name" (quote l.name)).toList ++
        (", ".toList ++ (keywordArg "src" (node l.src)).toList ++
        (", ".toList ++ (keywordArg "dst" (node l.dst)).toList ++
        ((option "port1" int l.port1).toList ++ ((option "port2" int l.port2).toList ++
        ((option "cls" id l.cls).toList ++ ((option "delay" quote l.delay).toList ++
        (option "bw" int l.bw).toList)))))) := by
  have hcls : ((l.cls.map fun cls => keywordArg "cls" cls).toList.map String.toList).flatMap
      (", ".toList ++ ·) = (option "cls" id l.cls).toList := flatMap_option "cls" id l.cls
  simp only [String.toList_intercalate, linkArgs, List.append_assoc, List.cons_append,
    List.nil_append, List.map_cons, List.map_append, Lists.intercalate_cons, List.flatMap_cons, List.flatMap_append,
    flatMap_option, hcls]

section

variable (port2 bw : Option UInt64) (cls delay : Option String) (r : List Char)

theorem behind_delay : Behind "delay" ((option "bw" int bw).toList ++ (")".toList ++ r)) :=
  (behind_parenthesis "delay" r).option (by simp) bw

theorem behind_cls : Behind "cls"
    ((option "delay" quote delay).toList ++ ((option "bw" int bw).toList ++ (")".toList ++ r))) :=
  ((behind_parenthesis "cls" r).option (by simp) bw).option (by simp) delay

theorem behind_port2 : Behind "port2"
    ((option "cls" id cls).toList ++ ((option "delay" quote delay).toList ++
      ((option "bw" int bw).toList ++ (")".toList ++ r)))) :=
  (((behind_parenthesis "port2" r).option (by simp) bw).option (by simp) delay).option (by simp) cls

theorem behind_port1 : Behind "port1"
    ((option "port2" int port2).toList ++ ((option "cls" id cls).toList ++
      ((option "delay" quote delay).toList ++ ((option "bw" int bw).toList ++ (")".toList ++ r))))) :=
  ((((behind_parenthesis "port1" r).option (by simp) bw).option (by simp) delay).option
    (by simp) cls).option (by simp) port2

end

theorem link_eq {a b : Link} (ha : ∀ cls ∈ a.cls, isName cls = true)
    (hb : ∀ cls ∈ b.cls, isName cls = true) {r s : List Char}
    (h : (String.intercalate ", " (linkArgs a)).toList ++ (")".toList ++ r) =
      (String.intercalate ", " (linkArgs b)).toList ++ (")".toList ++ s)) : a = b ∧ r = s := by
  have hint : Unambiguous (Writes int) (Stops isNameChar) := by
    apply unambiguous_int.mono
    intro r hr c hc
    have hname := hr c hc
    cases hd : c.isDigit with
    | false => rfl
    | true =>
      rw [isNameChar_of_isDigit hd] at hname
      cases hname
  obtain ⟨name, src, dst, port1, port2, cls, delay, bw⟩ := a
  obtain ⟨name', src', dst', port1', port2', cls', delay', bw'⟩ := b
  simp only [intercalate_linkArgs, keywordArg, String.toList_append, List.append_assoc,
    List.append_cancel_left_eq] at h
  obtain ⟨rfl, h₁⟩ := unambiguous_quote.eq trivial trivial h
  simp only [List.append_cancel_left_eq] at h₁
  obtain ⟨rfl, h₂⟩ := unambiguous_node.eq trivial trivial h₁
  simp only [List.append_cancel_left_eq] at h₂
  obtain ⟨rfl, h₃⟩ := unambiguous_node.eq trivial trivial h₂
  obtain ⟨rfl, h₄⟩ := option_eq hint (fun _ _ => rfl) (fun _ _ => rfl)
    (behind_port1 ..) (behind_port1 ..) h₃
  obtain ⟨rfl, h₅⟩ := option_eq hint (fun _ _ => rfl) (fun _ _ => rfl)
    (behind_port2 ..) (behind_port2 ..) h₄
  obtain ⟨rfl, h₆⟩ := option_eq unambiguous_name (fun v hv => ⟨ha v hv, rfl⟩)
    (fun v hv => ⟨hb v hv, rfl⟩) (behind_cls ..) (behind_cls ..) h₅
  obtain ⟨rfl, h₇⟩ := option_eq unambiguous_quote.anywhere (fun _ _ => rfl) (fun _ _ => rfl)
    (behind_delay ..) (behind_delay ..) h₆
  obtain ⟨rfl, h₈⟩ := option_eq hint (fun _ _ => rfl) (fun _ _ => rfl)
    (behind_parenthesis ..) (behind_parenthesis ..) h₇
  exact ⟨rfl, List.append_cancel_left h₈⟩

/-- The class of a link is written like a name. -/
def Named (call : Call) : Prop := ∀ cls ∈ call.cls?, isName cls = true

theorem container_eq {a b : Container} {r s : List Char}
    (h : (callText (.addContainer a)).toList ++ r = (callText (.addContainer b)).toList ++ s) :
    a = b ∧ r = s := by
  obtain ⟨name, ip, image, mac, env, ports, portBindings, cmd⟩ := a
  obtain ⟨name', ip', image', mac', env', ports', portBindings', cmd'⟩ := b
  simp only [callText, callLines, node, Call.op, String.intercalate_cons_cons,
    String.intercalate_singleton, String.toList_append, List.append_assoc,
    List.append_cancel_left_eq] at h
  obtain ⟨rfl, h₁⟩ := unambiguous_quote.eq trivial trivial h
  -- The name stands here twice, so that this goes on behind its second occurrence.
  simp only [List.append_cancel_left_eq] at h₁
  obtain ⟨rfl, h₂⟩ := unambiguous_quote.eq trivial trivial h₁
  obtain ⟨rfl, h₃⟩ := unambiguous_quote.behind trivial trivial h₂
  obtain ⟨rfl, h₄⟩ := unambiguous_quote.behind trivial trivial h₃
  simp only [List.append_cancel_left_eq] at h₄
  obtain ⟨rfl, h₅⟩ := unambiguous_env.eq trivial trivial h₄
  simp only [List.append_cancel_left_eq] at h₅
  obtain ⟨rfl, h₆⟩ := unambiguous_literals.eq trivial trivial h₅
  simp only [List.append_cancel_left_eq] at h₆
  obtain ⟨rfl, h₇⟩ := unambiguous_portBindings.eq trivial trivial h₆
  simp only [List.append_cancel_left_eq] at h₇
  obtain ⟨rfl, h₈⟩ := unambiguous_literals.eq trivial trivial h₇
  simp only [List.append_cancel_left_eq] at h₈
  exact ⟨rfl, h₈⟩

/-- The text of a call tells the call, whatever stands behind it. -/
theorem unambiguous_callText :
    Unambiguous (fun ts call => Named call ∧ ts = (callText call).toList) anyText := by
  rintro _ _ a b r s ⟨ha, rfl⟩ ⟨hb, rfl⟩ - - h
  have hop := op_eq_of_callText h
  cases a <;> cases b <;> simp only [Call.op, String.reduceEq] at hop
  case addContainer.addContainer c c' =>
    obtain ⟨rfl, hrest⟩ := container_eq h
    exact ⟨rfl, hrest⟩
  all_goals
    simp only [callText, callLines, invoke, keywordArg, Call.op, String.intercalate_cons_cons,
      String.intercalate_singleton, String.intercalate_nil, String.toList_append, List.append_assoc,
      List.append_cancel_left_eq] at h
  case addController.addController name name' =>
    obtain ⟨rfl, h₁⟩ := unambiguous_quote.eq trivial trivial h
    simp only [List.append_cancel_left_eq] at h₁
    exact ⟨rfl, h₁⟩
  case addRemoteController.addRemoteController name host port name' host' port' =>
    obtain ⟨rfl, h₁⟩ := unambiguous_quote.eq trivial trivial h
    simp only [List.append_cancel_left_eq] at h₁
    obtain ⟨rfl, h₂⟩ := unambiguous_quote.eq trivial trivial h₁
    simp only [List.append_cancel_left_eq] at h₂
    have hstop : ∀ r, Stops Char.isDigit (")".toList ++ r) := stops_cons (by decide)
    obtain ⟨rfl, h₃⟩ := unambiguous_int.eq (hstop _) (hstop _) h₂
    simp only [List.append_cancel_left_eq] at h₃
    exact ⟨rfl, h₃⟩
  case addSwitch.addSwitch name name' =>
    obtain ⟨rfl, h₁⟩ := unambiguous_node.eq trivial trivial h
    simp only [List.append_cancel_left_eq] at h₁
    exact ⟨rfl, h₁⟩
  case addLink.addLink l l' =>
    obtain ⟨rfl, h₁⟩ := link_eq ha hb h
    simp only [List.append_cancel_left_eq] at h₁
    exact ⟨rfl, h₁⟩
  case addIntent.addIntent src dst src' dst' =>
    obtain ⟨rfl, h₁⟩ := unambiguous_node.eq trivial trivial h
    simp only [List.append_cancel_left_eq] at h₁
    obtain ⟨rfl, h₂⟩ := unambiguous_node.eq trivial trivial h₁
    simp only [List.append_cancel_left_eq] at h₂
    exact ⟨rfl, h₂⟩
  case start.start => exact ⟨rfl, h⟩
  case ping.ping hosts hosts' =>
    obtain ⟨rfl, h₁⟩ := unambiguous_nodes.eq trivial trivial h
    simp only [List.append_cancel_left_eq] at h₁
    exact ⟨rfl, h₁⟩
  case stop.stop => exact ⟨rfl, h⟩

theorem toList_importLine (cls : String) : (importLine cls ++ "\n").toList =
    "from mininet.link import ".toList ++ (cls.toList ++ "\n".toList) := by
  unfold importLine
  rw [String.toList_append, String.toList_append, List.append_assoc]

theorem unambiguous_import :
    Unambiguous (fun ts cls => isName cls = true ∧ ts = (importLine cls ++ "\n").toList) anyText := by
  have hstop : ∀ r, Stops isNameChar ("\n".toList ++ r) := stops_cons (by decide)
  rintro _ _ a b r s ⟨ha, rfl⟩ ⟨hb, rfl⟩ - - heq
  simp only [toList_importLine, List.append_assoc, List.append_cancel_left_eq] at heq
  obtain ⟨rfl, hrest⟩ := unambiguous_name ⟨ha, rfl⟩ ⟨hb, rfl⟩ (hstop r) (hstop s) heq
  exact ⟨rfl, List.append_cancel_left hrest⟩

/-- The module that is written for a plan. -/
def moduleText (p : Plan) : String :=
  header ++ "\n" ++ String.join (p.linkClasses.map fun c => importLine c ++ "\n") ++
    "\n\ndef run_network(context):\n    nodes = \x7b\x7d\n" ++ String.join (p.calls.map callText)

theorem render_eq_ok {p : Plan} {text : String} :
    render p = .ok text ↔ p.linkClasses.forM checkClass = .ok () ∧ moduleText p = text := by
  have hrender : render p = p.linkClasses.forM checkClass >>= fun _ => .ok (moduleText p) := rfl
  rw [hrender]
  generalize moduleText p = full
  cases p.linkClasses.forM checkClass with
  | error e => simp [bind, Except.bind]
  | ok u => simp [bind, Except.bind]

theorem toList_moduleText (p : Plan) :
    (moduleText p).toList = (header ++ "\n").toList ++
      (p.linkClasses.flatMap (fun c => (importLine c ++ "\n").toList) ++
      ("\n\ndef run_network(context):\n    nodes = \x7b\x7d\n".toList ++
      p.calls.flatMap fun call => (callText call).toList)) := by
  unfold moduleText
  simp only [String.toList_append, String.toList_join, List.flatMap_map, List.append_assoc]

theorem callText_append_ne_nil (call : Call) (r : List Char) : (callText call).toList ++ r ≠ [] := by
  obtain ⟨target, -, rest, hrest⟩ := exists_callText call
  rw [← hrest]
  simp

theorem isName_of_mem_linkClasses {p : Plan} (hp : ∀ call ∈ p.calls, Named call) {cls : String}
    (h : cls ∈ p.linkClasses) : isName cls = true := by
  rw [Plan.linkClasses, List.mem_eraseDups] at h
  obtain ⟨call, hcall, hcls⟩ := List.mem_filterMap.mp h
  exact hp call hcall cls hcls

/-- Two plans with the same module are the same plan. -/
theorem render_injective {p q : Plan} {text : String}
    (hp : ∀ call ∈ p.calls, ∀ cls ∈ call.cls?, isName cls = true)
    (hq : ∀ call ∈ q.calls, ∀ cls ∈ call.cls?, isName cls = true)
    (hpt : render p = .ok text) (hqt : render q = .ok text) : p = q := by
  have himports : Unambiguous
      (Repeated fun ts cls => isName cls = true ∧ ts = (importLine cls ++ "\n").toList)
      (fun r => r.head? = some '\n') := by
    refine unambiguous_import.repeated (fun _ _ => trivial) (fun _ _ _ _ => trivial) ?_
    rintro _ cls ⟨-, rfl⟩ r
    rw [toList_importLine]
    simp
  have hcalls : Unambiguous (Repeated fun ts call => Named call ∧ ts = (callText call).toList)
      (· = []) := by
    refine unambiguous_callText.repeated (fun _ _ => trivial) (fun _ _ _ _ => trivial) ?_
    rintro _ call ⟨-, rfl⟩ r
    exact callText_append_ne_nil call r
  have htext := congrArg String.toList ((render_eq_ok.mp hpt).2.trans (render_eq_ok.mp hqt).2.symm)
  rw [toList_moduleText, toList_moduleText] at htext
  obtain ⟨-, hbody⟩ := himports
    (repeated_flatMap fun cls h => ⟨isName_of_mem_linkClasses hp h, rfl⟩)
    (repeated_flatMap fun cls h => ⟨isName_of_mem_linkClasses hq h, rfl⟩)
    rfl rfl (List.append_cancel_left htext)
  have hbody := List.append_cancel_left hbody
  rw [← List.append_nil (p.calls.flatMap _), ← List.append_nil (q.calls.flatMap _)] at hbody
  obtain ⟨heq, -⟩ := hcalls (repeated_flatMap fun call h => ⟨hp call h, rfl⟩)
    (repeated_flatMap fun call h => ⟨hq call h, rfl⟩) rfl rfl hbody
  cases p
  cases q
  exact congrArg Plan.mk heq

/-- A plan whose strings look like parts of a module. -/
def forged : Plan where
  calls :=
    [.addSwitch "s\"] = context.stop()\n    nodes[\"t",
     .addLink
      { name := "a, src=nodes[\"b\"]", src := "\\", dst := "\\\"", port1 := none, port2 := some 1,
        cls := some "TCLink", delay := some ", bw=1", bw := none },
     .addContainer
      { name := "", ip := "\",\n        cmd=[])", image := "\x00", mac := "\\x00"
        env := [("1", .str "1"), ("1", .int 1)], ports := [], portBindings := [(1, 11), (11, 1)]
        cmd := [.str "], \"", .str ", "] }]

theorem render_injective_forged : ∃ text, render forged = .ok text ∧
    ∀ q : Plan, (∀ call ∈ q.calls, ∀ cls ∈ call.cls?, isName cls = true) → render q = .ok text →
      q = forged := by
  have hnames : ∀ call ∈ forged.calls, ∀ cls ∈ call.cls?, isName cls = true := by decide
  have hcheck : forged.linkClasses.forM checkClass = .ok () := by rfl
  have hrender : render forged = .ok (moduleText forged) := render_eq_ok.mpr ⟨hcheck, rfl⟩
  exact ⟨moduleText forged, hrender, fun q hq h => render_injective hq hnames h hrender⟩

end Netlab.Python
