import CorpusIndex.Proofs.Indexing.Keywords

/-!
# What a relation graph records

A graph records which nodes are filed under which keywords, and which facts are listed (`Records`). Stating
a fact and filing a node add to the record. A deletion takes nodes out of it, and with them the facts whose
subject or object has lost its last node. No operation leaves an empty set of nodes, an empty list of pairs
or a fact that is listed twice.
-/
namespace CorpusIndex

theorem Postings.Tabulates.contains_iff {t : Postings} {R : String → String → Prop} {k : String}
    (h : t.Tabulates R) : t.contains k = true ↔ ∃ i, R k i := by
  rw [SortedMap.contains_iff]
  constructor
  · rintro ⟨ids, hids⟩
    obtain ⟨i, hi⟩ := h.inhabited k ids hids
    exact ⟨i, (h.filed k i).mp (mem_getD.mpr ⟨ids, hids, hi⟩)⟩
  · rintro ⟨i, hi⟩
    obtain ⟨ids, hids, _⟩ := mem_getD.mp ((h.filed k i).mpr hi)
    exact ⟨ids, hids⟩

/-- The keyword is the subject or the object of the fact. -/
def Triplet.Names (t : Triplet) (keyword : String) : Prop := keyword = t.subject ∨ keyword = t.object

namespace RelationGraph

variable {g : RelationGraph} {R : String → String → Prop} {F : Triplet → Prop} {t u : Triplet}
  {id subject : String} {pair : String × String} {pairs : List (String × String)} {p : String → Bool}

/-! ### Listed facts -/

/-- The fact is listed under its subject. -/
def Lists (g : RelationGraph) (t : Triplet) : Prop :=
  (t.relation, t.object) ∈ g.relations.getD t.subject []

/-- The pairs of a subject once a fact is stated. -/
def pairsWith (g : RelationGraph) (t : Triplet) : List (String × String) :=
  let pairs := g.relations.getD t.subject []
  if pairs.contains (t.relation, t.object) then pairs else pairs ++ [(t.relation, t.object)]

theorem relations_upsert (g : RelationGraph) (t : Triplet) (id : String) :
    (g.upsert t id).relations = g.relations.insert t.subject (g.pairsWith t) := rfl

theorem mem_pairsWith : pair ∈ g.pairsWith t ↔
    pair ∈ g.relations.getD t.subject [] ∨ pair = (t.relation, t.object) := by
  unfold pairsWith
  dsimp only
  split
  next hin =>
    refine (or_iff_left_of_imp ?_).symm
    rintro rfl
    exact List.contains_iff_mem.mp hin
  next => simp

theorem pairsWith_nodup (h : (g.relations.getD t.subject []).Nodup) : (g.pairsWith t).Nodup := by
  unfold pairsWith
  dsimp only
  split
  next => exact h
  next hout =>
    refine List.nodup_append.mpr ⟨h, by simp, fun a ha b hb hab => hout ?_⟩
    cases List.mem_singleton.mp hb
    exact List.contains_iff_mem.mpr (hab ▸ ha)

theorem lists_upsert : (g.upsert t id).Lists u ↔ g.Lists u ∨ u = t := by
  obtain ⟨s, r, o⟩ := u
  rw [Lists, relations_upsert, SortedMap.getD_eq]
  by_cases hs : s = t.subject
  · subst hs
    rw [SortedMap.get?_insert_self, Option.getD_some, mem_pairsWith]
    refine or_congr Iff.rfl ?_
    cases t
    simp
  · rw [SortedMap.get?_insert_of_ne _ _ hs, ← SortedMap.getD_eq]
    refine (or_iff_left ?_).symm
    rintro rfl
    exact hs rfl

theorem mem_restrict {table : Postings} {relations : SortedMap String (List (String × String))} :
    pair ∈ (restrict table relations).getD subject [] ↔ pair ∈ relations.getD subject [] ∧
      table.contains subject = true ∧ table.contains pair.2 = true := by
  have hget (m : SortedMap String (List (String × String))) : pair ∈ m.getD subject [] ↔
      ∃ pairs, m.get? subject = some pairs ∧ pair ∈ pairs := by
    rw [SortedMap.getD_eq]
    cases m.get? subject <;> simp
  simp only [hget, get?_restrict]
  constructor
  · rintro ⟨_, ⟨hs, ⟨old, hold, rfl⟩, _⟩, hp⟩
    obtain ⟨hp, ho⟩ := List.mem_filter.mp hp
    exact ⟨⟨old, hold, hp⟩, hs, ho⟩
  · rintro ⟨⟨old, hold, hp⟩, hs, ho⟩
    have hp := List.mem_filter (p := fun p => table.contains p.2).mpr ⟨hp, ho⟩
    exact ⟨_, ⟨hs, ⟨old, hold, rfl⟩, List.ne_nil_of_mem hp⟩, hp⟩

/-! ### Records -/

/-- The nodes of `R` are filed and the facts of `F` are listed, all of them between keywords that some
node is filed under. -/
structure Records (g : RelationGraph) (R : String → String → Prop) (F : Triplet → Prop) : Prop where
  table : g.table.Tabulates R
  listed : ∀ t, g.Lists t ↔ F t
  named : ∀ t, F t → (∃ n, R t.subject n) ∧ ∃ n, R t.object n
  stated : ∀ s pairs, g.relations.get? s = some pairs → pairs ≠ []
  nodup : ∀ s pairs, g.relations.get? s = some pairs → pairs.Nodup

namespace Records

theorem empty (id : String) : ({ id } : RelationGraph).Records (fun _ _ => False) fun _ => False where
  table := .empty
  listed t := by simp [Lists, SortedMap.getD_eq]
  named _ h := h.elim
  stated _ _ h := by cases h
  nodup _ _ h := by cases h

theorem congr {R' : String → String → Prop} {F' : Triplet → Prop} (h : g.Records R F)
    (hR : ∀ k i, R k i ↔ R' k i) (hF : ∀ t, F t ↔ F' t) : g.Records R' F' where
  table := ⟨fun k i => (h.table.filed k i).trans (hR k i), h.table.inhabited⟩
  listed t := (h.listed t).trans (hF t)
  named t ht := by
    obtain ⟨⟨n, hn⟩, m, hm⟩ := h.named t ((hF t).mpr ht)
    exact ⟨⟨n, (hR _ n).mp hn⟩, m, (hR _ m).mp hm⟩
  stated := h.stated
  nodup := h.nodup

theorem add (h : g.Records R F) (keywords : List String) (id : String) :
    (g.add keywords id).Records (fun k i => R k i ∨ (k ∈ keywords ∧ i = id)) F where
  table := h.table.file keywords id
  listed := h.listed
  named t ht := (h.named t ht).imp (fun ⟨n, hn⟩ => ⟨n, .inl hn⟩) fun ⟨n, hn⟩ => ⟨n, .inl hn⟩
  stated := h.stated
  nodup := h.nodup

theorem upsert (h : g.Records R F) (t : Triplet) (id : String) :
    (g.upsert t id).Records (fun k i => R k i ∨ (t.Names k ∧ i = id)) fun u => F u ∨ u = t where
  table := by
    have hfile := h.table.file [t.subject, t.object] id
    refine ⟨fun k i => (hfile.filed k i).trans ?_, hfile.inhabited⟩
    rw [Triplet.Names, List.mem_pair]
  listed u := lists_upsert.trans (or_congr_left (h.listed u))
  named u hu := by
    rcases hu with hu | rfl
    · exact (h.named u hu).imp (fun ⟨n, hn⟩ => ⟨n, .inl hn⟩) fun ⟨n, hn⟩ => ⟨n, .inl hn⟩
    · exact ⟨⟨id, .inr ⟨.inl rfl, rfl⟩⟩, id, .inr ⟨.inr rfl, rfl⟩⟩
  stated s pairs hs := by
    rcases SortedMap.get?_insert_eq_some.mp hs with ⟨_, rfl⟩ | ⟨_, hs⟩
    · exact List.ne_nil_of_mem (mem_pairsWith.mpr (.inr rfl))
    · exact h.stated s pairs hs
  nodup s pairs hs := by
    rcases SortedMap.get?_insert_eq_some.mp hs with ⟨_, rfl⟩ | ⟨_, hs⟩
    · refine pairsWith_nodup ?_
      rw [SortedMap.getD_eq]
      cases hold : g.relations.get? t.subject with
      | none => exact .nil
      | some old => exact h.nodup _ old hold
    · exact h.nodup s pairs hs

/-- Once the ids of a kind are gone, a fact stays where both its subject and its object keep a node. -/
theorem leaving (h : g.Records R F) (p : String → Bool) :
    (g.leaving p).Records (fun k i => R k i ∧ p i = false) fun t => F t ∧
      (∃ n, R t.subject n ∧ p n = false) ∧ ∃ n, R t.object n ∧ p n = false := by
  have htable : (g.leaving p).table.Tabulates fun k i => R k i ∧ p i = false :=
    table_leaving ▸ h.table.leaving p
  by_cases hnone : (g.table.among p).isEmpty = true
  · -- nothing goes, so every node of a subject or object stays
    have hkeep {k i : String} (hk : R k i) : p i = false := by
      rw [← Bool.not_eq_true]
      intro hp
      exact SortedSet.isEmpty_iff.mp hnone i
        (Postings.mem_among.mpr ⟨h.table.mem_nodeIds.mpr ⟨k, hk⟩, hp⟩)
    have hsame : g.leaving p = g := if_pos hnone
    have hends (t : Triplet) (ht : F t) : (∃ n, R t.subject n ∧ p n = false) ∧
        ∃ n, R t.object n ∧ p n = false :=
      (h.named t ht).imp (fun ⟨n, hn⟩ => ⟨n, hn, hkeep hn⟩) fun ⟨n, hn⟩ => ⟨n, hn, hkeep hn⟩
    refine ⟨htable, fun t => ?_, fun t ht => ht.2, hsame.symm ▸ h.stated, hsame.symm ▸ h.nodup⟩
    rw [hsame, h.listed]
    exact (and_iff_left_of_imp (hends t)).symm
  · have hrelations : (g.leaving p).relations = restrict (g.leaving p).table g.relations := by
      rw [table_leaving, RelationGraph.leaving, if_neg hnone]
    refine ⟨htable, fun t => ?_, fun t ht => ht.2, fun s pairs hs => ?_, fun s pairs hs => ?_⟩
    · rw [Lists, hrelations, mem_restrict, ← h.listed, htable.contains_iff, htable.contains_iff]
      rfl
    · rw [hrelations] at hs
      exact (get?_restrict.mp hs).2.2
    · rw [hrelations] at hs
      obtain ⟨_, ⟨old, hold, rfl⟩, _⟩ := get?_restrict.mp hs
      exact (h.nodup s old hold).filter _

end Records
end RelationGraph
end CorpusIndex
