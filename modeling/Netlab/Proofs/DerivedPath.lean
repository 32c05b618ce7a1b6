import Netlab.Proofs.AllOrNothing
import Netlab.Proofs.Splitting

namespace Netlab

def LastName.full (n : LastName) : List Char := n.stem ++ n.extension?.elim [] ('.' :: ·)

namespace Path

def trimmed (p : Path) : Path := ⟨String.ofList (dropTrail p.text.toList.reverse).reverse⟩

def leadSegments (lead : List Char) : List String :=
  (Text.split '/' lead).dropLast.map String.ofList

/-- A path is what leads to a directory, and a segment that is looked up there. -/
structure EndsIn (p : Path) (lead name : List Char) : Prop where
  text : p.text.toList = lead ++ name
  lead : lead = [] ∨ ∃ before, lead = before ++ ['/']
  name : '/' ∉ name

def IsName (name : List Char) : Prop := name ≠ [] ∧ name ≠ ['.'] ∧ name ≠ ['.', '.']

section

variable {p q : Path} {lead name : List Char}

theorem EndsIn.segments_eq (h : p.EndsIn lead name) :
    p.segments = leadSegments lead ++ [String.ofList name] := by
  have hname := Text.split_of_not_mem h.name
  rw [segments, h.text, leadSegments]
  obtain rfl | ⟨before, rfl⟩ := h.lead
  · simp [hname, Text.split]
  · rw [List.append_assoc, List.singleton_append, Text.split_append_cons, Text.split_append_cons, hname]
    simp [Text.split]

theorem EndsIn.isAbsolute_eq (h : p.EndsIn lead name) :
    p.isAbsolute = decide (lead.head? = some '/') := by
  rw [isAbsolute, h.text]
  obtain rfl | ⟨before, rfl⟩ := h.lead
  · have hne : name.head? ≠ some '/' := fun hs => h.name (List.mem_of_mem_head? hs)
    simp [hne]
  · cases before <;> simp

theorem EndsIn.eq (hp : p.EndsIn lead name) (hq : q.EndsIn lead name) : p = q := by
  obtain ⟨s⟩ := p
  obtain ⟨t⟩ := q
  have he : s.toList = t.toList := hp.text.trans hq.text.symm
  rw [String.toList_inj.mp he]

theorem trimmed_cases (p : Path) :
    p.trimmed = p ∨ ∃ lead, p.EndsIn lead [] ∨ p.EndsIn lead ['.'] := by
  have hcases : ∀ cs, dropTrail cs = cs ∨ ∃ ds, cs = '/' :: ds ∨ cs = '.' :: '/' :: ds := by
    intro cs
    fun_cases dropTrail cs with
    | case1 cs => exact .inr ⟨cs, .inl rfl⟩
    | case2 cs => exact .inr ⟨cs, .inr rfl⟩
    | case3 => exact .inl rfl
  obtain hsame | ⟨ds, hds⟩ := hcases p.text.toList.reverse
  · rw [trimmed, hsame, List.reverse_reverse, String.ofList_toList]
    exact .inl rfl
  · have hlead : ds.reverse ++ ['/'] = [] ∨ ∃ before, ds.reverse ++ ['/'] = before ++ ['/'] :=
      .inr ⟨ds.reverse, rfl⟩
    refine .inr ⟨ds.reverse ++ ['/'], ?_⟩
    obtain hds | hds := hds
    · exact .inl ⟨by simpa using congrArg List.reverse hds, hlead, List.not_mem_nil⟩
    · exact .inr ⟨by simpa using congrArg List.reverse hds, hlead, by decide⟩

theorem endsIn_cutSegment (cs : List Char) :
    EndsIn ⟨String.ofList cs⟩ (cutSegment cs).1 (cutSegment cs).2 := by
  unfold cutSegment
  split
  · rename_i before name hcut
    obtain ⟨rfl, hname⟩ := Text.cutLast?_eq_some hcut
    exact ⟨by simp, .inr ⟨before, rfl⟩, hname⟩
  · rename_i hcut
    exact ⟨by simp, .inl rfl, Text.cutLast?_eq_none hcut⟩

theorem nameOf?_eq_some {trailed : Bool} {n : LastName} (h : nameOf? lead name trailed = some n) :
    n.lead = lead ∧ n.full = name ∧ IsName name := by
  unfold nameOf? at h
  split at h
  · cases h
  · rename_i hname
    have his : IsName name := by simpa [IsName] using hname
    split at h
    · cases h
      exact ⟨rfl, List.append_nil name, his⟩
    · cases h
      exact ⟨rfl, List.append_nil name, his⟩
    · rename_i stem extension _ hcut
      cases h
      exact ⟨rfl, (Text.cutLast?_eq_some hcut).1.symm, his⟩

/-- A path that has a last name ends in it, but for what has no effect. -/
theorem endsIn_of_lastName? {n : LastName} (h : p.lastName? = some n) :
    p.trimmed.EndsIn n.lead n.full ∧ IsName n.full := by
  obtain ⟨hlead, hfull, hname⟩ := nameOf?_eq_some h
  have hends := endsIn_cutSegment (dropTrail p.text.toList.reverse).reverse
  rw [← hlead, ← hfull] at hends
  exact ⟨hends, hfull ▸ hname⟩

end

end Path

namespace FileSystem

variable {fs : FileSystem} {p q : Path} {lead name name' : List Char} {l m r : Location}

theorem startOf_eq (hp : p.EndsIn lead name) (hq : q.EndsIn lead name') :
    fs.startOf p = fs.startOf q := by
  rw [startOf, startOf, hp.isAbsolute_eq, hq.isAbsolute_eq]

theorem locate_of_endsIn (h : p.EndsIn lead name) (hr : fs.locate p = .ok r) :
    ∃ m, fs.walk (fs.startOf p) (Path.leadSegments lead) = .ok m ∧ fs.lookup? m = some .directory ∧
      r = enter m (String.ofList name) := by
  rw [locate, h.segments_eq, walk_append_eq_ok] at hr
  obtain ⟨m, hm, hlast⟩ := hr
  obtain ⟨hd, he⟩ := walk_cons_eq_ok.mp hlast
  cases he
  exact ⟨m, hm, hd, rfl⟩

theorem enter_of_isName (h : Path.IsName name) :
    enter l (String.ofList name) = l ++ [String.ofList name] := by
  have hne : ∀ cs, name ≠ cs → String.ofList name ≠ String.ofList cs := fun cs hn he =>
    hn (String.ofList_injective he)
  have hdots : String.ofList name ≠ "" ∧ String.ofList name ≠ "." ∧ String.ofList name ≠ ".." :=
    ⟨hne [] h.1, hne ['.'] h.2.1, hne ['.', '.'] h.2.2⟩
  simp [enter, hdots]

/-- A path that goes on behind its last name leads to directories only. -/
theorem directory_of_trail (h : p.EndsIn lead [] ∨ p.EndsIn lead ['.']) (hr : fs.locate p = .ok r) :
    fs.lookup? r = some .directory := by
  obtain h | h := h
  · obtain ⟨m, -, hd, rfl⟩ := locate_of_endsIn h hr
    exact hd
  · obtain ⟨m, -, hd, rfl⟩ := locate_of_endsIn h hr
    exact hd

theorem Target.eq_of_endsIn (h : fs.Target p l) (hp : p.EndsIn lead name)
    (hm : fs.walk (fs.startOf p) (Path.leadSegments lead) = .ok m) :
    l = m ++ [String.ofList name] ∧ String.ofList name ≠ ".." := by
  cases h with
  | intro hsegments hname hlead =>
    obtain ⟨rfl, hlast⟩ := List.append_inj' (hp.segments_eq.symm.trans hsegments) rfl
    cases hlast
    cases hm.symm.trans hlead
    exact ⟨rfl, hname.2.2⟩

/-- What is written for a source goes to another place, unless it has the path of the source. -/
theorem Target.ne_source {extension : String} (hext : '/' ∉ extension.toList)
    (hl : fs.Target (p.withExtension extension) l) (hne : (p.withExtension extension).same p = false)
    (hr : fs.locate p = .ok r) (hfile : fs.lookup? r ≠ some .directory) : l ≠ r := by
  unfold Path.withExtension at hl hne
  cases hn : p.lastName? with
  | none => simp [hn, Path.same] at hne
  | some n =>
    obtain ⟨hends, hname⟩ := Path.endsIn_of_lastName? hn
    obtain htrimmed | ⟨lead, htrail⟩ := p.trimmed_cases
    · rw [htrimmed] at hends
      obtain ⟨m, hm, -, rfl⟩ := locate_of_endsIn hends hr
      simp only [hn] at hl hne
      split at hl
      · -- The name would be two dots, which is no place for a file.
        have hdots : Path.EndsIn ⟨String.ofList (n.lead ++ ['.', '.'])⟩ n.lead ['.', '.'] :=
          ⟨by simp, hends.lead, by decide⟩
        rw [startOf_eq hends hdots] at hm
        exact absurd rfl (hl.eq_of_endsIn hdots hm).2
      · rename_i hdots
        rw [if_neg hdots] at hne
        have hstem : '/' ∉ n.stem := fun hs => hends.name (List.mem_append_left _ hs)
        have hother : Path.EndsIn ⟨String.ofList (n.lead ++ n.stem ++ '.' :: extension.toList)⟩ n.lead
            (n.stem ++ '.' :: extension.toList) :=
          ⟨by simp, hends.lead, by simp [hstem, hext]⟩
        rw [startOf_eq hends hother] at hm
        rw [(hl.eq_of_endsIn hother hm).1, enter_of_isName hname]
        intro he
        have hsame : String.ofList (n.stem ++ '.' :: extension.toList) = String.ofList n.full := by
          simpa using he
        rw [String.ofList_injective hsame] at hother
        rw [hother.eq hends] at hne
        simp [Path.same] at hne
    · exact absurd (directory_of_trail htrail hr) hfile

end FileSystem

end Netlab
