import Mathlib.Data.List.Induction
import Netlab.Proofs.PythonText
import Netlab.Proofs.Splitting

namespace Netlab

namespace Plan

/-- The number of calls in front of the first one that uses a class. -/
def firstUse (p : Plan) (cls : String) : Nat := p.calls.findIdx fun call => call.cls? = some cls

/-- The classes that links of a plan use, each of them once, in the order of their first uses. -/
structure FirstUses (p : Plan) (classes : List String) : Prop where
  mem : ∀ cls, cls ∈ classes ↔ ∃ l, Call.addLink l ∈ p.calls ∧ l.cls = some cls
  nodup : classes.Nodup
  ordered : classes.Pairwise fun c d => p.firstUse c < p.firstUse d

theorem mem_linkClasses {p : Plan} {cls : String} :
    cls ∈ p.linkClasses ↔ ∃ call ∈ p.calls, call.cls? = some cls := by
  rw [linkClasses, List.mem_eraseDups, List.mem_filterMap]

theorem firstUse_lt_length {p : Plan} {cls : String} :
    p.firstUse cls < p.calls.length ↔ cls ∈ p.linkClasses := by
  rw [firstUse, List.findIdx_lt_length, mem_linkClasses]
  simp

/-- A call adds its class if no call before it has used that. -/
theorem linkClasses_concat (calls : List Call) (call : Call) :
    linkClasses ⟨calls ++ [call]⟩ =
      linkClasses ⟨calls⟩ ++ (call.cls?.toList.filter fun cls => cls ∉ linkClasses ⟨calls⟩) := by
  have hused : (calls ++ [call]).filterMap Call.cls? = calls.filterMap Call.cls? ++ call.cls?.toList := by
    cases hcls : call.cls? <;> simp [hcls]
  simp only [linkClasses, hused, List.eraseDups_append, List.mem_eraseDups]
  generalize calls.filterMap Call.cls? = used
  cases call.cls? with
  | none => rfl
  | some cls => by_cases hmem : cls ∈ used <;> simp [List.removeAll, List.eraseDups_cons, hmem]

theorem firstUse_concat (calls : List Call) (call : Call) (cls : String) :
    firstUse ⟨calls ++ [call]⟩ cls = if cls ∈ linkClasses ⟨calls⟩ then firstUse ⟨calls⟩ cls
      else firstUse ⟨[call]⟩ cls + calls.length := by
  simp only [← firstUse_lt_length]
  exact List.findIdx_append

theorem pairwise_linkClasses (p : Plan) :
    p.linkClasses.Pairwise fun c d => p.firstUse c < p.firstUse d := by
  obtain ⟨calls⟩ := p
  induction calls using List.reverseRecOn with
  | nil => exact .nil
  | append_singleton calls call ih =>
    rw [linkClasses_concat]
    refine List.pairwise_append.mpr ⟨?_, ?_, ?_⟩
    · -- The uses that have been there are still the first ones.
      apply ih.imp_of_mem
      intro c d hc hd hlt
      rwa [firstUse_concat, firstUse_concat, if_pos hc, if_pos hd]
    · apply List.Pairwise.filter
      cases call.cls? <;> simp
    · intro c hc d hd
      have hnew : d ∉ linkClasses ⟨calls⟩ := of_decide_eq_true (List.mem_filter.mp hd).2
      rw [firstUse_concat, firstUse_concat, if_pos hc, if_neg hnew]
      exact Nat.lt_add_left _ (firstUse_lt_length.mpr hc)

theorem firstUses_linkClasses (p : Plan) : p.FirstUses p.linkClasses where
  mem cls := by
    rw [mem_linkClasses]
    constructor
    · rintro ⟨call, hcall, hcls⟩
      cases call with
      | addLink l => exact ⟨l, hcall, hcls⟩
      | _ => cases hcls
    · rintro ⟨l, hl, hcls⟩
      exact ⟨.addLink l, hl, hcls⟩
  nodup := by
    apply p.pairwise_linkClasses.imp
    rintro c _ hlt rfl
    exact Nat.lt_irrefl _ hlt
  ordered := p.pairwise_linkClasses

end Plan

namespace Python

/-- A text without control characters, so that it stays on its line. -/
def Plain (s : String) : Prop := ∀ c ∈ s.toList, 0x20 ≤ c.toNat ∧ c.toNat ≠ 0x7F

instance (s : String) : Decidable (Plain s) := List.decidableBAll _ s.toList

theorem plain_append {s t : String} : Plain (s ++ t) ↔ Plain s ∧ Plain t := by
  simp only [Plain, String.toList_append, List.forall_mem_append]

theorem plain_intercalate {separator : String} {items : List String} (hsep : Plain separator)
    (h : ∀ item ∈ items, Plain item) : Plain (String.intercalate separator items) := by
  unfold Plain
  rw [String.toList_intercalate]
  apply Lists.forall_mem_intercalate hsep
  exact List.forall_mem_map.mpr h

theorem plain_escape (c : Char) : ∀ d ∈ escape c, 0x20 ≤ d.toNat ∧ d.toNat ≠ 0x7F := by
  have hdigit : ∀ n < 16, 0x20 ≤ (Nat.digitChar n).toNat ∧ (Nat.digitChar n).toNat ≠ 0x7F := by decide
  unfold escape
  split_ifs with hb hq hn hr ht hc
  iterate 5
    · rw [List.forall_mem_cons, List.forall_mem_singleton]
      decide
  · simp only [List.forall_mem_cons]
    exact ⟨by decide, by decide, hdigit _ (by omega), hdigit _ (by omega), by simp⟩
  · rw [List.forall_mem_singleton]
    omega

theorem plain_quote (s : String) : Plain (quote s) := by
  unfold Plain quote
  rw [String.toList_ofList]
  simp only [List.cons_append, List.forall_mem_cons, List.forall_mem_append, List.forall_mem_flatMap]
  exact ⟨by decide, fun c _ => plain_escape c, by decide, by simp⟩

theorem plain_of_isNameChar {s : String} (h : ∀ c ∈ s.toList, isNameChar c = true) : Plain s := by
  intro c hc
  rcases Bool.or_eq_true_iff.mp (h c hc) with halnum | hunderscore
  · rcases Bool.or_eq_true_iff.mp halnum with halpha | hdigit
    · have hletter := toNat_of_isAlpha halpha
      omega
    · have hrange := toNat_of_isDigit hdigit
      omega
  · rw [of_decide_eq_true hunderscore]
    decide

theorem plain_int (n : UInt64) : Plain (int n) := by
  obtain ⟨d, ds, hs, hdigit⟩ := exists_digits_int n
  apply plain_of_isNameChar
  rw [hs]
  exact fun c hc => isNameChar_of_isDigit (hdigit c hc)

theorem plain_literal (l : Literal) : Plain (literal l) := by
  cases l with
  | str s => exact plain_quote s
  | int n => exact plain_int n

theorem plain_list {items : List String} (h : ∀ item ∈ items, Plain item) : Plain (list items) := by
  simp only [list, plain_append]
  exact ⟨⟨by decide, plain_intercalate (by decide) h⟩, by decide⟩

theorem plain_dict {items : List (String × String)} (h : ∀ item ∈ items, Plain item.1 ∧ Plain item.2) :
    Plain (dict items) := by
  simp only [dict, plain_append]
  refine ⟨⟨by decide, plain_intercalate (by decide) ?_⟩, by decide⟩
  intro item hitem
  obtain ⟨entry, hentry, rfl⟩ := List.mem_map.mp hitem
  simp only [plain_append]
  exact ⟨⟨(h entry hentry).1, by decide⟩, (h entry hentry).2⟩

theorem plain_node (name : String) : Plain (node name) := by
  simp only [node, plain_append]
  exact ⟨⟨by decide, plain_quote name⟩, by decide⟩

theorem plain_keywordArg {name value : String} (hname : Plain name) (h : Plain value) :
    Plain (keywordArg name value) := by
  simp only [keywordArg, plain_append]
  exact ⟨⟨hname, by decide⟩, h⟩

theorem plain_invoke {op : String} {args : List String} (hop : Plain op) (h : ∀ arg ∈ args, Plain arg) :
    Plain (invoke op args) := by
  simp only [invoke, plain_append]
  exact ⟨⟨⟨⟨by decide, hop⟩, by decide⟩, plain_intercalate (by decide) h⟩, by decide⟩

theorem plain_optional {α : Type} {key : String} {write : α → String} {value : Option α}
    (hkey : Plain key) (h : ∀ a ∈ value, Plain (write a)) :
    ∀ arg ∈ (value.map fun a => keywordArg key (write a)).toList, Plain arg := by
  intro arg harg
  obtain ⟨a, ha, rfl⟩ := Option.map_eq_some_iff.mp (Option.mem_toList.mp harg)
  exact plain_keywordArg hkey (h a ha)

/-- All but the class of a link is quoted or a number. -/
theorem plain_linkArgs {l : Link} (h : ∀ cls ∈ l.cls, isName cls = true) :
    ∀ arg ∈ linkArgs l, Plain arg := by
  have hcls : ∀ cls ∈ l.cls, Plain cls := fun cls hc => plain_of_isNameChar (isNameChar_of_isName (h cls hc))
  simp only [linkArgs, List.forall_mem_append, List.forall_mem_cons]
  refine ⟨⟨⟨⟨⟨⟨?_, ?_, ?_, by simp⟩, ?_⟩, ?_⟩, ?_⟩, ?_⟩, ?_⟩
  · exact plain_keywordArg (by decide) (plain_quote l.name)
  · exact plain_keywordArg (by decide) (plain_node l.src)
  · exact plain_keywordArg (by decide) (plain_node l.dst)
  · exact plain_optional (by decide) fun n _ => plain_int n
  · exact plain_optional (by decide) fun n _ => plain_int n
  · exact plain_optional (by decide) hcls
  · exact plain_optional (by decide) fun d _ => plain_quote d
  · exact plain_optional (by decide) fun n _ => plain_int n

theorem plain_op (call : Call) : Plain call.op := by
  cases call <;> (rw [Call.op]; decide)

theorem plain_containerLines (c : Container) : ∀ line ∈ callLines (.addContainer c), Plain line := by
  have hliterals : ∀ ls : List Literal, Plain (list (ls.map literal)) := fun ls =>
    plain_list (List.forall_mem_map.mpr fun l _ => plain_literal l)
  have henv : Plain (dict (c.env.map fun e => (quote e.1, literal e.2))) :=
    plain_dict (List.forall_mem_map.mpr fun e _ => ⟨plain_quote e.1, plain_literal e.2⟩)
  have hbindings : Plain (dict (c.portBindings.map fun e => (int e.1, int e.2))) :=
    plain_dict (List.forall_mem_map.mpr fun e _ => ⟨plain_int e.1, plain_int e.2⟩)
  simp only [callLines, Call.op, List.forall_mem_cons, plain_append, plain_node, plain_quote, hliterals,
    henv, hbindings, true_and, and_true]
  -- Only the fixed texts between these are left.
  decide

theorem plain_callLines {call : Call} (h : Named call) : ∀ line ∈ callLines call, Plain line := by
  cases call with
  | addContainer c => exact plain_containerLines c
  | addController name =>
    rw [callLines, List.forall_mem_singleton]
    exact plain_invoke (plain_op _)
      (List.forall_mem_singleton.mpr (plain_keywordArg (by decide) (plain_quote name)))
  | addRemoteController name host port =>
    rw [callLines, List.forall_mem_singleton]
    apply plain_invoke (plain_op _)
    simp only [List.forall_mem_cons]
    exact ⟨plain_keywordArg (by decide) (plain_quote name), plain_keywordArg (by decide) (plain_quote host),
      plain_keywordArg (by decide) (plain_int port), by simp⟩
  | addSwitch name =>
    rw [callLines, List.forall_mem_singleton, plain_append, plain_append]
    exact ⟨⟨plain_node name, by decide⟩, plain_invoke (plain_op _)
      (List.forall_mem_singleton.mpr (plain_keywordArg (by decide) (plain_quote name)))⟩
  | addLink l =>
    rw [callLines, List.forall_mem_singleton]
    exact plain_invoke (plain_op _) (plain_linkArgs h)
  | addIntent src dst =>
    rw [callLines, List.forall_mem_singleton]
    apply plain_invoke (plain_op _)
    simp only [List.forall_mem_cons]
    exact ⟨plain_keywordArg (by decide) (plain_node src), plain_keywordArg (by decide) (plain_node dst),
      by simp⟩
  | ping hosts =>
    rw [callLines, List.forall_mem_singleton]
    apply plain_invoke (plain_op _)
    rw [List.forall_mem_singleton]
    exact plain_list (List.forall_mem_map.mpr fun name _ => plain_node name)
  | start | stop =>
    rw [callLines, List.forall_mem_singleton]
    exact plain_invoke (plain_op _) (by simp)

def bodyLines (call : Call) : List String :=
  match callLines call with
  | [] => []
  | first :: rest => ("    " ++ first) :: rest

def height : Call → Nat
  | .addContainer _ => 6
  | _ => 1

/-- What the lines of calls start with. -/
def bodyMarks : List String :=
  ["    context.", "    nodes[", "        name=", "        env=", "        ports=",
    "        port_bindings=", "        cmd="]

theorem length_bodyLines (call : Call) : (bodyLines call).length = height call := by
  cases call <;> rfl

theorem exists_mark (call : Call) :
    ∀ line ∈ bodyLines call, ∃ mark ∈ bodyMarks, mark.toList <+: line.toList := by
  cases call with
  | addContainer c =>
    simp only [bodyLines, callLines, List.forall_mem_cons]
    refine ⟨⟨"    nodes[", by decide, ?_⟩, ⟨"        name=", by decide, ?_⟩, ⟨"        env=", by decide, ?_⟩,
      ⟨"        ports=", by decide, ?_⟩, ⟨"        port_bindings=", by decide, ?_⟩,
      ⟨"        cmd=", by decide, ?_⟩, by simp⟩ <;> simp [node]
  | addSwitch name =>
    simp only [bodyLines, callLines, List.forall_mem_singleton]
    exact ⟨"    nodes[", by decide, by simp [node]⟩
  | _ =>
    simp only [bodyLines, callLines, List.forall_mem_singleton]
    exact ⟨"    context.", by decide, by simp [invoke]⟩

theorem indented_bodyLines (call : Call) : ∀ line ∈ bodyLines call, "    ".toList <+: line.toList := by
  have hindent : ∀ mark ∈ bodyMarks, "    ".toList <+: mark.toList := by decide
  intro line hline
  obtain ⟨mark, hmark, hprefix⟩ := exists_mark call line hline
  exact (hindent mark hmark).trans hprefix

/-- A line that imports something, with blanks in front or without. -/
def isImport (line : List Char) : Bool :=
  "from ".toList.isPrefixOf (Text.trimLeft line) || "import ".toList.isPrefixOf (Text.trimLeft line)

theorem isImport_bodyLines {call : Call} : ∀ line ∈ bodyLines call, isImport line.toList = false := by
  have hmarks : ∀ mark ∈ bodyMarks, ∀ rest, isImport (mark.toList ++ rest) = false := by
    simp only [bodyMarks, List.forall_mem_cons]
    exact ⟨fun _ => rfl, fun _ => rfl, fun _ => rfl, fun _ => rfl, fun _ => rfl, fun _ => rfl,
      fun _ => rfl, by simp⟩
  intro line hline
  obtain ⟨mark, hmark, rest, hrest⟩ := exists_mark call line hline
  rw [← hrest]
  exact hmarks mark hmark rest

theorem toList_callText (call : Call) :
    (callText call).toList = (bodyLines call).flatMap fun line => line.toList ++ ['\n'] := by
  cases hlines : callLines call with
  | nil => exact absurd hlines (by cases call <;> simp [callLines])
  | cons first rest =>
    have hend : "\n".toList = ['\n'] := rfl
    rw [callText, bodyLines, hlines, String.toList_append, String.toList_append,
      String.toList_intercalate, List.map_cons, hend, List.append_assoc,
      Lists.intercalate_append_separator]
    simp [List.flatMap_map]

def moduleLines (p : Plan) : List String :=
  (header :: p.linkClasses.map importLine) ++
    (["", "", "def run_network(context):", "    nodes = \x7b\x7d"] ++ p.calls.flatMap bodyLines)

theorem toList_moduleText_lines (p : Plan) :
    (moduleText p).toList = (moduleLines p).flatMap fun line => line.toList ++ ['\n'] := by
  have hhead : "\n\ndef run_network(context):\n    nodes = \x7b\x7d\n".toList =
      ["", "", "def run_network(context):", "    nodes = \x7b\x7d"].flatMap
        fun line => line.toList ++ ['\n'] := by decide
  have hend : "\n".toList = ['\n'] := rfl
  simp only [toList_moduleText, moduleLines, List.flatMap_append, List.flatMap_cons, List.flatMap_map,
    List.flatMap_assoc, hhead, toList_callText, String.toList_append, hend, List.append_assoc]

theorem plain_bodyLines {call : Call} (h : Named call) : ∀ line ∈ bodyLines call, Plain line := by
  have hlines := plain_callLines h
  unfold bodyLines
  split
  · simp
  · rename_i first rest heq
    rw [heq, List.forall_mem_cons] at hlines
    rw [List.forall_mem_cons, plain_append]
    exact ⟨⟨by decide, hlines.1⟩, hlines.2⟩

theorem plain_moduleLines {p : Plan} (hp : ∀ call ∈ p.calls, Named call) :
    ∀ line ∈ moduleLines p, Plain line := by
  simp only [moduleLines, List.forall_mem_append, List.forall_mem_flatMap]
  refine ⟨?_, by decide, fun call hcall => plain_bodyLines (hp call hcall)⟩
  rw [List.forall_mem_cons, List.forall_mem_map]
  refine ⟨by decide, fun cls hcls => ?_⟩
  unfold importLine
  rw [plain_append]
  exact ⟨by decide, plain_of_isNameChar (isNameChar_of_isName (isName_of_mem_linkClasses hp hcls))⟩

theorem filter_isImport (p : Plan) :
    (moduleLines p).filter (fun line => isImport line.toList) = p.linkClasses.map importLine := by
  have himports : (p.linkClasses.map importLine).filter (fun line => isImport line.toList) =
      p.linkClasses.map importLine := by
    apply List.filter_eq_self.mpr
    rw [List.forall_mem_map]
    intro cls _
    unfold importLine
    rw [String.toList_append]
    rfl
  have hhead : ["", "", "def run_network(context):", "    nodes = \x7b\x7d"].filter
      (fun line => isImport line.toList) = [] := by decide
  have hbody : (p.calls.flatMap bodyLines).filter (fun line => isImport line.toList) = [] := by
    apply List.filter_eq_nil_iff.mpr
    rw [List.forall_mem_flatMap]
    intro call _ line hline
    rw [isImport_bodyLines line hline]
    decide
  rw [moduleLines, List.filter_append, List.filter_append, hhead, hbody, List.append_nil, List.append_nil,
    List.filter_cons_of_neg (by decide), himports]

/-- Splitting the module at the ends of its lines gives these lines. -/
theorem split_moduleText {p : Plan} (hp : ∀ call ∈ p.calls, Named call) :
    Text.split '\n' (moduleText p).toList = (moduleLines p ++ [""]).map String.toList := by
  rw [toList_moduleText_lines, ← List.flatMap_map String.toList (· ++ ['\n']), Text.split_flatMap,
    List.map_append]
  · rfl
  · rw [List.forall_mem_map]
    intro line hline hm
    exact absurd (plain_moduleLines hp line hline '\n' hm).1 (by decide)

theorem imports_moduleText {p : Plan} (hp : ∀ call ∈ p.calls, Named call) :
    (Text.split '\n' (moduleText p).toList).filter isImport =
      (p.linkClasses.map importLine).map String.toList := by
  have hlast : [""].filter (fun line => isImport line.toList) = [] := by decide
  rw [split_moduleText hp, List.filter_map]
  change ((moduleLines p ++ [""]).filter fun line => isImport line.toList).map String.toList = _
  rw [List.filter_append, filter_isImport, hlast, List.append_nil]

theorem plain_moduleText {p : Plan} (hp : ∀ call ∈ p.calls, Named call) :
    ∀ c ∈ (moduleText p).toList, c = '\n' ∨ 0x20 ≤ c.toNat ∧ c.toNat ≠ 0x7F := by
  intro c hc
  rw [toList_moduleText_lines] at hc
  obtain ⟨line, hline, hc⟩ := List.mem_flatMap.mp hc
  rcases List.mem_append.mp hc with hc | hc
  · exact .inr (plain_moduleLines hp line hline c hc)
  · exact .inl (List.mem_singleton.mp hc)

/-- The module for a plan consists of the header, an import for each class in the order of the first
uses, the head of the function, and the lines of the calls, all of them indented. No string of the plan
ends a line or adds one. -/
theorem render_lines {p : Plan} {text : String}
    (hp : ∀ call ∈ p.calls, ∀ cls ∈ call.cls?, isName cls = true) (h : render p = .ok text) :
    p.FirstUses p.linkClasses ∧
      Text.split '\n' text.toList =
        ((header :: p.linkClasses.map ("from mininet.link import " ++ ·)) ++
          (["", "", "def run_network(context):", "    nodes = \x7b\x7d"] ++ p.calls.flatMap bodyLines) ++
          [""]).map String.toList ∧
      (Text.split '\n' text.toList).filter isImport =
        p.linkClasses.map (fun cls => ("from mininet.link import " ++ cls).toList) ∧
      (∀ call ∈ p.calls, (bodyLines call).length = height call ∧
        ∀ line ∈ bodyLines call, "    ".toList <+: line.toList) ∧
      ∀ c ∈ text.toList, c = '\n' ∨ 0x20 ≤ c.toNat ∧ c.toNat ≠ 0x7F := by
  obtain ⟨-, rfl⟩ := render_eq_ok.mp h
  refine ⟨p.firstUses_linkClasses, split_moduleText hp, ?_, ?_, plain_moduleText hp⟩
  · rw [imports_moduleText hp, List.map_map]
    rfl
  · exact fun call _ => ⟨length_bodyLines call, indented_bodyLines call⟩

def broken : Plan where
  calls :=
    [.addSwitch "s\nimport os",
     .addLink ⟨"a", "\r\n", "\x7F", none, none, some "OVSLink", some "\n", none⟩,
     .addLink ⟨"b", "s", "t", none, none, some "TCLink", none, none⟩,
     .addLink ⟨"c", "s", "t", none, none, some "OVSLink", none, none⟩,
     .addContainer ⟨"h", "", "\nfrom os import path", "", [("\n", .str "\x00")], [], [], [.str "\n"]⟩]

theorem render_lines_broken : ∃ text, render broken = .ok text ∧
    broken.FirstUses ["OVSLink", "TCLink"] ∧
    (Text.split '\n' text.toList).filter isImport =
      ["from mininet.link import OVSLink".toList, "from mininet.link import TCLink".toList] ∧
    (Text.split '\n' text.toList).length = 18 := by
  have hnames : ∀ call ∈ broken.calls, ∀ cls ∈ call.cls?, isName cls = true := by decide
  have hcheck : broken.linkClasses.forM checkClass = .ok () := by rfl
  have hclasses : broken.linkClasses = ["OVSLink", "TCLink"] := by decide
  have hrender : render broken = .ok (moduleText broken) := render_eq_ok.mpr ⟨hcheck, rfl⟩
  obtain ⟨hfirst, hlines, himports, -⟩ := render_lines hnames hrender
  rw [hclasses] at hfirst hlines himports
  refine ⟨moduleText broken, hrender, hfirst, himports, ?_⟩
  rw [hlines, List.length_map]
  rfl

end Python

end Netlab
