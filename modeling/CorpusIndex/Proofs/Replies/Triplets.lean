import CorpusIndex.Extract.Triplets
import CorpusIndex.Proofs.Text.Trimming

/-!
# Facts of a reply

A line states a fact if none of its parts is empty, has a blank at an end, or holds a comma or a line feed. A
reply that states such facts, one a line, is read back as these facts, and no reply is read as others.
-/
namespace CorpusIndex

open Text

/-- A line has a place for the part: it is not empty, has no blank at an end, and is not cut where parts or
lines are. -/
structure Triplet.IsPart (s : String) : Prop where
  tidy : Tidy s.toList
  no_comma : ',' ∉ s.toList
  no_feed : '\n' ∉ s.toList

/-- A line can state the fact. -/
structure Triplet.Statable (t : Triplet) : Prop where
  subject : IsPart t.subject
  relation : IsPart t.relation
  object : IsPart t.object

namespace Triplets
variable {s line inner : List Char} {t : Triplet} {ts : List Triplet}

/-- The texts of facts, one a line. -/
def stated (ts : List Triplet) : String := String.intercalate "\n" (ts.map Triplet.text)

/-! ### Lines that are written -/

theorem bracketed?_eq_some : bracketed? line = some inner ↔ line = '(' :: (inner ++ [')']) := by
  unfold bracketed?
  split
  next rest =>
    rw [Option.ite_none_right_eq_some, Option.some_inj, List.cons_inj_right, List.getLast?_eq_some_iff]
    constructor
    · rintro ⟨⟨ys, rfl⟩, rfl⟩
      rw [List.dropLast_concat]
    · rintro rfl
      exact ⟨⟨inner, rfl⟩, List.dropLast_concat⟩
  next hopen =>
    refine iff_of_false (by simp) ?_
    rintro rfl
    exact hopen _ rfl

/-- The parts of what stands between the brackets. -/
def parts (inner : List Char) : List (List Char) := (pieces (· == ',') inner).map trim

theorem ofLine?_eq_some : ofLine? line = some t ↔ ∃ inner, trim line = '(' :: (inner ++ [')']) ∧
    parts inner = [t.subject.toList, t.relation.toList, t.object.toList] ∧
    ∀ part ∈ parts inner, part ≠ [] := by
  constructor
  · intro h
    unfold ofLine? at h
    split at h
    next s r o hread =>
      obtain ⟨inner, hinner, hparts⟩ := Option.map_eq_some_iff.mp hread
      split at h
      next => cases h
      next hne =>
        cases h
        simp only [Bool.or_eq_true, List.isEmpty_iff, not_or] at hne
        have hparts : parts inner = [s, r, o] := hparts
        refine ⟨inner, bracketed?_eq_some.mp hinner, ?_, ?_⟩
        · simpa only [String.toList_ofList] using hparts
        · simpa [hparts] using ⟨hne.1.1, hne.1.2, hne.2⟩
    next => cases h
  · rintro ⟨inner, hline, hparts, hne⟩
    have hread : (bracketed? (trim line)).map (fun inner => (pieces (· == ',') inner).map trim) =
        some [t.subject.toList, t.relation.toList, t.object.toList] := by
      rw [bracketed?_eq_some.mpr hline, Option.map_some]
      exact congrArg some hparts
    rw [hparts] at hne
    simp only [List.forall_mem_cons, ← List.isEmpty_eq_false_iff] at hne
    simp only [ofLine?, hread, hne.1, hne.2.1, hne.2.2.1, Bool.or_self, Bool.false_eq_true, if_false,
      String.ofList_toList]

/-- What the text of a fact has between its brackets. -/
def listed (t : Triplet) : List Char :=
  t.subject.toList ++ ',' :: (' ' :: t.relation.toList ++ ',' :: ' ' :: t.object.toList)

theorem toList_text (t : Triplet) : t.text.toList = '(' :: (listed t ++ [')']) := by
  simp [Triplet.text, listed]

/-- The blank before a part is no part of it. -/
theorem parts_listed (h : t.Statable) :
    parts (listed t) = [t.subject.toList, t.relation.toList, t.object.toList] := by
  have hrelation : ',' ∉ ' ' :: t.relation.toList := by simpa using h.relation.no_comma
  have hobject : ',' ∉ ' ' :: t.object.toList := by simpa using h.object.no_comma
  rw [parts, listed, pieces_append_cons h.subject.no_comma, pieces_append_cons hrelation, pieces_of_not_mem hobject]
  simp only [List.map_cons, List.map_nil, trim_cons_blank (show isBlank ' ' = true from rfl),
    trim_of_tidy h.subject.tidy, trim_of_tidy h.relation.tidy, trim_of_tidy h.object.tidy]

theorem tidy_text (t : Triplet) : Tidy t.text.toList := by
  have hlast : t.text.toList.getLast? = some ')' := by
    rw [toList_text, ← List.cons_append, List.getLast?_concat]
  refine tidy_iff.mpr ⟨?_, ?_⟩
  · rw [toList_text]
    rfl
  · rw [hlast]
    rfl

theorem ofLine?_text (h : t.Statable) : ofLine? t.text.toList = some t := by
  refine ofLine?_eq_some.mpr ⟨listed t, ?_, parts_listed h, ?_⟩
  · rw [trim_of_tidy (tidy_text t), toList_text]
  · rw [parts_listed h]
    simp only [List.forall_mem_cons]
    exact ⟨h.subject.tidy.inked.ne_nil, h.relation.tidy.inked.ne_nil, h.object.tidy.inked.ne_nil, by simp⟩

theorem text_no_feed (h : t.Statable) : '\n' ∉ t.text.toList := by
  rw [toList_text, listed]
  simp [h.subject.no_feed, h.relation.no_feed, h.object.no_feed]

theorem pieces_stated (h : ∀ t ∈ ts, t.Statable) (hne : ts ≠ []) :
    pieces (· == '\n') (stated ts).toList = ts.map (·.text.toList) := by
  have hlines : ∀ line ∈ ts.map (·.text.toList), '\n' ∉ line := by
    intro line hline
    obtain ⟨t, ht, rfl⟩ := List.mem_map.mp hline
    exact text_no_feed (h t ht)
  rw [stated, String.toList_intercalate, List.map_map, pieces_eq_splitOnP]
  exact List.splitOn_intercalate '\n' hlines (by simpa using hne)

theorem ofReply_stated (h : ∀ t ∈ ts, t.Statable) : ofReply (stated ts) = ts := by
  by_cases hne : ts = []
  · subst hne
    rfl
  · have hread : ∀ t ∈ ts, (ofLine? ∘ (·.text.toList)) t = some t := by
      intro t ht
      rw [Function.comp_apply, ofLine?_text (h t ht)]
    rw [ofReply, pieces_stated h hne, List.filterMap_map, List.filterMap_congr hread, List.filterMap_some]

/-! ### Lines that are read -/

theorem isPart_of_mem_parts {part : List Char} (hfeed : '\n' ∉ inner) (hpart : part ∈ parts inner)
    (hne : part ≠ []) : Triplet.IsPart (String.ofList part) := by
  obtain ⟨piece, hpiece, rfl⟩ := List.mem_map.mp hpart
  have hin : ∀ c ∈ trim piece, c ∈ piece := fun c hc => (trim_isInfix piece).subset hc
  constructor
  · rw [String.toList_ofList]
    exact tidy_trim hne
  · rw [String.toList_ofList]
    intro hc
    simpa using not_of_mem_pieces hpiece (hin _ hc)
  · rw [String.toList_ofList]
    intro hc
    exact hfeed (of_mem_pieces hpiece (hin _ hc)).1

theorem statable_of_ofLine? (hfeed : '\n' ∉ line) (h : ofLine? line = some t) : t.Statable := by
  obtain ⟨inner, hline, hparts, hne⟩ := ofLine?_eq_some.mp h
  have hinner : '\n' ∉ inner := by
    intro hc
    refine hfeed ((trim_isInfix line).subset ?_)
    rw [hline]
    simp [hc]
  have hpart : ∀ part ∈ parts inner, Triplet.IsPart (String.ofList part) := fun part hpart =>
    isPart_of_mem_parts hinner hpart (hne part hpart)
  rw [hparts] at hpart
  simp only [List.forall_mem_cons, String.ofList_toList] at hpart
  exact ⟨hpart.1, hpart.2.1, hpart.2.2.1⟩

theorem statable_of_mem_ofReply {reply : String} (h : t ∈ ofReply reply) : t.Statable := by
  obtain ⟨line, hline, ht⟩ := List.mem_filterMap.mp h
  refine statable_of_ofLine? (fun hfeed => ?_) ht
  simpa using not_of_mem_pieces hline hfeed

/-- Facts stated one a line are read back exactly if a line can state each of them. All facts read from a reply
are such, so stating and reading them again changes nothing. -/
theorem ofReply_stated_iff :
    (∀ ts : List Triplet, ofReply (stated ts) = ts ↔ ∀ t ∈ ts, t.Statable) ∧
    ∀ reply : String, (∀ t ∈ ofReply reply, t.Statable) ∧ ofReply (stated (ofReply reply)) = ofReply reply := by
  have hread : ∀ reply : String, ∀ t ∈ ofReply reply, t.Statable := fun reply t => statable_of_mem_ofReply
  refine ⟨fun ts => ⟨fun h t ht => ?_, ofReply_stated⟩, fun reply => ⟨hread reply, ofReply_stated (hread reply)⟩⟩
  rw [← h] at ht
  exact hread (stated ts) t ht

/-- Brackets, quotes and carriage returns within a part are kept. -/
example : ofReply "(a(), says \"(b)\", )\rc )\r\n(a, b)" = [⟨"a()", "says \"(b)\"", ")\rc"⟩] := by decide

end Triplets
end CorpusIndex
