import CorpusIndex.Proofs.Indexing.Vectors
import CorpusIndex.Proofs.Vectors.Edits
import CorpusIndex.Scripted

/-!
# Ids that an engine assigns

An engine may keep vectors under other ids than the proposed ones. The map then holds the proposed ids already
and replaces them one after another, so that an id which a later node still holds is refused, although the
engine has kept the vectors. Where no id is awaited in this way, all are replaced as if at once.
-/
namespace CorpusIndex.VectorMap

variable {σ : Type} {m m₁ m' : VectorMap} {nodes done : List Node} {pairs rest : List (String × String)}
  {ids : List String} {old new v doc : String}

/-- The id in the place of `v`. -/
def renamed (pairs : List (String × String)) (v : String) : String := (pairs.lookup v).getD v

/-- The old ids are mapped, and the new ones are free but for those that are old. -/
structure Renames (m : VectorMap) (pairs : List (String × String)) : Prop where
  olds : (pairs.map (·.1)).Nodup
  news : (pairs.map (·.2)).Nodup
  mapped : ∀ p ∈ pairs, ∃ n, m.nodes.get? p.1 = some n
  free : ∀ p ∈ pairs, m.nodes.get? p.2 = none ∨ p.2 ∈ pairs.map (·.1)

/-- `m'` is `m` with the old ids replaced by the new ones. -/
structure Rebound (m : VectorMap) (pairs : List (String × String)) (m' : VectorMap) : Prop where
  given : ∀ p ∈ pairs, m'.nodes.get? p.2 = m.nodes.get? p.1
  others : ∀ v, v ∉ pairs.map (·.2) →
    m'.nodes.get? v = if v ∈ pairs.map (·.1) then none else m.nodes.get? v
  listed : ∀ doc, m'.listed doc = (m.listed doc).map (renamed pairs)
  embeddings : m'.embeddings = m.embeddings.map fun e => (renamed pairs e.1, e.2)
  header : m'.id = m.id ∧ m'.summary = m.summary ∧ m'.backend = m.backend

/-! ### Names -/

theorem renamed_cons (pairs : List (String × String)) (old new v : String) :
    renamed ((old, new) :: pairs) v = if v = old then new else renamed pairs v := by
  unfold renamed
  rw [List.lookup_cons]
  by_cases hv : v = old
  · simp [hv]
  · have hne : (v == old) = false := by simpa using hv
    rw [hne, if_neg hv]

theorem renamed_of_not_mem (h : v ∉ pairs.map (·.1)) : renamed pairs v = v := by
  induction pairs with
  | nil => rfl
  | cons p pairs ih =>
      obtain ⟨hne, hrest⟩ := not_or.mp (List.mem_cons.not.mp h)
      rw [renamed_cons, if_neg hne, ih hrest]

theorem renamed_of_mem (hnd : (pairs.map (·.1)).Nodup) {p : String × String} (hp : p ∈ pairs) :
    renamed pairs p.1 = p.2 := by
  induction pairs with
  | nil => cases hp
  | cons q pairs ih =>
      obtain ⟨hnew, hnd⟩ := List.nodup_cons.mp hnd
      rw [renamed_cons]
      rcases List.mem_cons.mp hp with rfl | hp
      · exact if_pos rfl
      · have hne : p.1 ≠ q.1 := ne_of_mem_of_not_mem (List.mem_map_of_mem (f := (·.1)) hp) hnew
        rw [if_neg hne, ih hnd hp]

/-! ### One id -/

theorem get?_rebind (h : m.rebind old new = .ok m') (v : String) : m'.nodes.get? v =
    if v = new then m.nodes.get? old else if v = old then none else m.nodes.get? v := by
  obtain ⟨rfl, rfl⟩ | ⟨n, hne, _, hold, hnodes, _⟩ := rebind_eq_ok h
  · split
    next hv => rw [hv]
    next hv => rfl
  · rw [hnodes]
    split
    next hv => rw [hv, SortedMap.get?_insert_self, hold]
    next hv =>
      rw [SortedMap.get?_insert_of_ne _ _ hv]
      split
      next hv' => rw [hv', SortedMap.get?_erase_self]
      next hv' => rw [SortedMap.get?_erase_of_ne _ hv']

theorem ite_eq_id {v : String} : (if v = old then old else v) = v := by
  split
  next h => exact h.symm
  next => rfl

theorem listed_rebound (h : m.rebind old new = .ok m') (doc : String) :
    m'.listed doc = (m.listed doc).map fun v => if v = old then new else v := by
  by_cases hne : old = new
  · subst hne
    obtain ⟨_, rfl⟩ | ⟨_, hne, _⟩ := rebind_eq_ok h
    · simp [ite_eq_id]
    · exact (hne rfl).elim
  · exact listed_rebind h hne doc

theorem embeddings_rebound (h : m.rebind old new = .ok m') :
    m'.embeddings = m.embeddings.map fun e => (if e.1 = old then new else e.1, e.2) := by
  by_cases hne : old = new
  · subst hne
    obtain ⟨_, rfl⟩ | ⟨_, hne, _⟩ := rebind_eq_ok h
    · simp [ite_eq_id]
    · exact (hne rfl).elim
  · exact embeddings_rebind h hne

theorem header_rebind (h : m.rebind old new = .ok m') :
    m'.id = m.id ∧ m'.summary = m.summary ∧ m'.backend = m.backend := by
  unfold rebind at h
  split at h
  next =>
    cases h
    exact ⟨rfl, rfl, rfl⟩
  next =>
    split at h <;> cases h
    exact ⟨rfl, rfl, rfl⟩

/-! ### One id after another -/

theorem not_mem_olds (hclear : ∀ q ∈ rest, new ≠ q.1) : new ∉ rest.map (·.1) := by
  intro hin
  obtain ⟨q, hq, heq⟩ := List.mem_map.mp hin
  exact hclear q hq heq.symm

theorem Renames.rebind_eq_ok (hr : m.Renames ((old, new) :: rest)) (hclear : ∀ q ∈ rest, new ≠ q.1) :
    ∃ m₁, m.rebind old new = .ok m₁ := by
  unfold rebind
  split
  next => exact ⟨m, rfl⟩
  next hne =>
    obtain ⟨n, hold⟩ := hr.mapped (old, new) List.mem_cons_self
    have hnew : m.nodes.get? new = none := by
      apply (hr.free (old, new) List.mem_cons_self).resolve_right
      intro hin
      rcases List.mem_cons.mp hin with heq | hin
      · exact hne heq.symm
      · exact not_mem_olds hclear hin
    rw [hnew, hold]
    exact ⟨_, rfl⟩

theorem Renames.rebind_eq_error (hr : m.Renames ((old, new) :: rest)) (hin : new ∈ rest.map (·.1)) :
    ∃ holder, m.nodes.get? new = some holder ∧
      m.rebind old new = .error (.repeated (.vectorId new holder)) := by
  have hne : old ≠ new := (ne_of_mem_of_not_mem hin (List.nodup_cons.mp hr.olds).1).symm
  obtain ⟨q, hq, rfl⟩ := List.mem_map.mp hin
  obtain ⟨holder, hholder⟩ := hr.mapped q (List.mem_cons_of_mem _ hq)
  exact ⟨holder, hholder, VectorMap.rebind_eq_error.mpr (.bound hne hholder)⟩

theorem Renames.tail (hr : m.Renames ((old, new) :: rest)) (h : m.rebind old new = .ok m₁) :
    m₁.Renames rest := by
  obtain ⟨hold, holds⟩ := List.nodup_cons.mp hr.olds
  obtain ⟨hnew, hnews⟩ := List.nodup_cons.mp hr.news
  refine ⟨holds, hnews, fun p hp => ?_, fun p hp => ?_⟩
  · have hne : p.1 ≠ old := ne_of_mem_of_not_mem (List.mem_map_of_mem (f := (·.1)) hp) hold
    rw [get?_rebind h, if_neg hne]
    split
    · exact hr.mapped (old, new) List.mem_cons_self
    · exact hr.mapped p (List.mem_cons_of_mem _ hp)
  · have hne : p.2 ≠ new := ne_of_mem_of_not_mem (List.mem_map_of_mem (f := (·.2)) hp) hnew
    rw [get?_rebind h, if_neg hne]
    split
    next => exact .inl rfl
    next hne' =>
      apply (hr.free p (List.mem_cons_of_mem _ hp)).imp_right
      intro hin
      exact (List.mem_cons.mp hin).resolve_left hne'

theorem Rebound.nil (m : VectorMap) : m.Rebound [] m where
  given := by simp
  others := by simp
  listed doc := (List.map_id (m.listed doc)).symm
  embeddings := (List.map_id m.embeddings).symm
  header := ⟨rfl, rfl, rfl⟩

/-- The first pair is replaced before the others, none of which has its new id to replace. -/
theorem Rebound.cons (hr : m.Renames ((old, new) :: rest)) (hclear : ∀ q ∈ rest, new ≠ q.1)
    (h : m.rebind old new = .ok m₁) (hrest : m₁.Rebound rest m') : m.Rebound ((old, new) :: rest) m' := by
  have hold : old ∉ rest.map (·.1) := (List.nodup_cons.mp hr.olds).1
  have hnew : new ∉ rest.map (·.2) := (List.nodup_cons.mp hr.news).1
  have hgone : new ∉ rest.map (·.1) := not_mem_olds hclear
  have hname (u : String) : renamed rest (if u = old then new else u) = renamed ((old, new) :: rest) u := by
    rw [renamed_cons]
    split
    · exact renamed_of_not_mem hgone
    · rfl
  constructor
  · intro p hp
    rcases List.mem_cons.mp hp with rfl | hp
    · rw [hrest.others new hnew, if_neg hgone, get?_rebind h, if_pos rfl]
    · have hne : p.1 ≠ new := (hclear p hp).symm
      have hne' : p.1 ≠ old := ne_of_mem_of_not_mem (List.mem_map_of_mem (f := (·.1)) hp) hold
      rw [hrest.given p hp, get?_rebind h, if_neg hne, if_neg hne']
  · intro u hu
    obtain ⟨hne, hu⟩ := not_or.mp (List.mem_cons.not.mp hu)
    rw [hrest.others u hu, get?_rebind h, if_neg hne, List.map_cons]
    by_cases huold : u = old
    · simp [huold]
    · simp only [huold, if_false, List.mem_cons, false_or]
  · intro doc
    rw [hrest.listed, listed_rebound h, List.map_map]
    exact List.map_congr_left fun u _ => hname u
  · rw [hrest.embeddings, embeddings_rebound h, List.map_map]
    exact List.map_congr_left fun e _ => Prod.ext (hname e.1) rfl
  · obtain ⟨hid, hsummary, hbackend⟩ := header_rebind h
    rw [← hid, ← hsummary, ← hbackend]
    exact hrest.header

/-- Where no new id is still to be replaced, every id is. -/
theorem rebindAll_of_clear (hr : m.Renames pairs) (hclear : pairs.Pairwise fun p q => p.2 ≠ q.1) :
    ∃ m', m.rebindAll pairs = .ok m' ∧ m.Rebound pairs m' := by
  induction pairs generalizing m with
  | nil => exact ⟨m, rfl, .nil m⟩
  | cons p rest ih =>
      obtain ⟨hfirst, hclear⟩ := List.pairwise_cons.mp hclear
      obtain ⟨m₁, h⟩ := hr.rebind_eq_ok hfirst
      obtain ⟨m', hrun, hrest⟩ := ih (hr.tail h) hclear
      refine ⟨m', ?_, .cons hr hfirst h hrest⟩
      rw [rebindAll, h, ok_bind, hrun]

/-- A new id that is still to be replaced is refused. -/
theorem rebindAll_of_awaited (hr : m.Renames pairs) (h : ¬ pairs.Pairwise fun p q => p.2 ≠ q.1) :
    ∃ v holder, v ∈ pairs.map (·.1) ∧ m.nodes.get? v = some holder ∧
      m.rebindAll pairs = .error (.repeated (.vectorId v holder)) := by
  induction pairs generalizing m with
  | nil => exact (h .nil).elim
  | cons p rest ih =>
      obtain ⟨old, new⟩ := p
      by_cases hfirst : ∀ q ∈ rest, new ≠ q.1
      · obtain ⟨m₁, hrebind⟩ := hr.rebind_eq_ok hfirst
        have hlater : ¬ rest.Pairwise fun p q => p.2 ≠ q.1 := fun hrest =>
          h (List.pairwise_cons.mpr ⟨hfirst, hrest⟩)
        obtain ⟨v, holder, hv, hholder, hrun⟩ := ih (hr.tail hrebind) hlater
        have hne : v ≠ new := ne_of_mem_of_not_mem hv (not_mem_olds hfirst)
        have hne' : v ≠ old := ne_of_mem_of_not_mem hv (List.nodup_cons.mp hr.olds).1
        rw [get?_rebind hrebind, if_neg hne, if_neg hne'] at hholder
        refine ⟨v, holder, List.mem_cons_of_mem _ hv, hholder, ?_⟩
        rw [rebindAll, hrebind, ok_bind, hrun]
      · obtain ⟨q, hq, heq⟩ : ∃ q ∈ rest, new = q.1 := by simpa using hfirst
        have hin : new ∈ rest.map (·.1) := heq ▸ List.mem_map_of_mem hq
        obtain ⟨holder, hholder, hrefused⟩ := hr.rebind_eq_error hin
        refine ⟨new, holder, List.mem_cons_of_mem _ hin, hholder, ?_⟩
        rw [rebindAll, hrefused]
        rfl

/-! ### Entering -/

/-- Embeddings of nodes put under the node ids. -/
def putEach (nodes : List Node) (l : List (String × Embedding)) : List (String × Embedding) :=
  nodes.foldl (fun l n => putEmbedding n.id (n.embedding.getD []) l) l

/-- `m'` is `m` with the nodes under their own ids. -/
structure Entered (m : VectorMap) (nodes : List Node) (m' : VectorMap) : Prop where
  mapped : ∀ v, m'.nodes.get? v = if v ∈ nodes.map (·.id) then some v else m.nodes.get? v
  listed : ∀ doc, m'.listed doc = m.listed doc ++ listing doc nodes
  embeddings : m'.embeddings = if m.backend.inProcess then putEach nodes m.embeddings else m.embeddings
  header : m'.id = m.id ∧ m'.summary = m.summary ∧ m'.backend = m.backend

theorem Entered.nil (m : VectorMap) : m.Entered [] m where
  mapped := by simp
  listed doc := (List.append_nil (m.listed doc)).symm
  embeddings := by simp [putEach]
  header := ⟨rfl, rfl, rfl⟩

theorem Entered.append (h : m.Entered nodes m₁) (h' : m₁.Entered done m') : m.Entered (nodes ++ done) m' := by
  obtain ⟨hid, hsummary, hbackend⟩ := h.header
  refine ⟨fun v => ?_, fun doc => ?_, ?_, ?_⟩
  · rw [h'.mapped, h.mapped, List.map_append]
    by_cases hv : v ∈ done.map (·.id)
    · rw [if_pos hv, if_pos (List.mem_append_right _ hv)]
    · simp only [hv, if_false, List.mem_append, or_false]
  · rw [h'.listed, h.listed, List.append_assoc, listing, listing, listing, List.filter_append, List.map_append]
  · rw [h'.embeddings, h.embeddings, hbackend]
    split
    · rw [putEach, putEach, putEach, List.foldl_append]
    · rfl
  · rw [← hid, ← hsummary, ← hbackend]
    exact h'.header

/-- The map with the embedding of a node, where it keeps embeddings. -/
def stock (m : VectorMap) (n : Node) : VectorMap :=
  if m.backend.inProcess then m.embed n.id (n.embedding.getD []) else m

theorem stock_keeps (m : VectorMap) (n : Node) :
    (m.stock n).nodes = m.nodes ∧ (m.stock n).documents = m.documents ∧ (m.stock n).id = m.id ∧
      (m.stock n).summary = m.summary ∧ (m.stock n).backend = m.backend := by
  unfold stock
  split <;> exact ⟨rfl, rfl, rfl, rfl, rfl⟩

theorem embeddings_stock (m : VectorMap) (n : Node) : (m.stock n).embeddings =
    if m.backend.inProcess then putEmbedding n.id (n.embedding.getD []) m.embeddings else m.embeddings := by
  unfold stock
  split <;> rfl

/-- A node under an id that is not mapped enters. -/
theorem entered_add {n : Node} (hnew : m.nodes.get? n.id = none) :
    ∃ m₁, m.add n none = .ok (m₁, n.id) ∧ m.Entered [n] (m₁.stock n) := by
  obtain ⟨m₁, hadd, hnodes, hembeddings, hheader⟩ : ∃ m₁, m.add n none = .ok (m₁, n.id) ∧
      m₁.nodes = m.nodes.insert n.id n.id ∧ m₁.embeddings = m.embeddings ∧
      m₁.id = m.id ∧ m₁.summary = m.summary ∧ m₁.backend = m.backend := by
    simp only [add, Option.getD_none, hnew]
    exact ⟨_, rfl, rfl, rfl, rfl, rfl, rfl⟩
  obtain ⟨hnodes', hdocuments', hid', hsummary', hbackend'⟩ := m₁.stock_keeps n
  refine ⟨m₁, hadd, fun v => ?_, fun doc => ?_, ?_, ?_⟩
  · rw [hnodes', hnodes]
    by_cases hv : v = n.id
    · rw [hv, SortedMap.get?_insert_self, if_pos (by simp)]
    · rw [SortedMap.get?_insert_of_ne _ _ hv, if_neg (by simpa using hv)]
  · have hlisted : (m₁.stock n).listed doc = m₁.listed doc := by rw [listed, hdocuments', listed]
    rw [hlisted, listed_add hadd hnew, listing]
    by_cases hdoc : n.document = some doc
    · simp [hdoc]
    · simp [hdoc]
  · rw [embeddings_stock, hembeddings, hheader.2.2]
    rfl
  · rw [hid', hsummary', hbackend']
    exact hheader

/-- New nodes enter under their own ids. -/
theorem enter_new (hnd : (nodes.map (·.id)).Nodup) (hnew : ∀ n ∈ nodes, m.nodes.get? n.id = none) :
    ∃ m', m.enter nodes = .ok (m', nodes.map entryOf) ∧ m.Entered nodes m' := by
  induction nodes generalizing m with
  | nil => exact ⟨m, rfl, .nil m⟩
  | cons n nodes ih =>
      obtain ⟨hout, hnd⟩ := List.nodup_cons.mp hnd
      obtain ⟨m₁, hadd, hone⟩ := entered_add (hnew n List.mem_cons_self)
      have hfree : ∀ k ∈ nodes, (m₁.stock n).nodes.get? k.id = none := by
        intro k hk
        have hne : k.id ≠ n.id := ne_of_mem_of_not_mem (List.mem_map_of_mem (f := (·.id)) hk) hout
        rw [hone.mapped, if_neg (by simpa using hne)]
        exact hnew k (List.mem_cons_of_mem _ hk)
      obtain ⟨m', henter, hm'⟩ := ih hnd hfree
      refine ⟨m', ?_, hone.append hm'⟩
      have hstock : (if m₁.backend.inProcess then m₁.embed n.id (n.embedding.getD []) else m₁) =
          m₁.stock n := rfl
      unfold enter
      rw [hadd, ok_bind]
      dsimp only
      rw [hstock, henter, ok_bind]
      rfl

theorem putEach_of_new {l : List (String × Embedding)} (hnd : (nodes.map (·.id)).Nodup)
    (hnew : ∀ n ∈ nodes, n.id ∉ l.map (·.1)) :
    putEach nodes l = l ++ nodes.map fun n => (n.id, n.embedding.getD []) := by
  induction nodes generalizing l with
  | nil => simp [putEach]
  | cons n nodes ih =>
      obtain ⟨hout, hnd⟩ := List.nodup_cons.mp hnd
      have hfree : ∀ k ∈ nodes, k.id ∉ (l ++ [(n.id, n.embedding.getD [])]).map (·.1) := by
        intro k hk
        have hne : k.id ≠ n.id := ne_of_mem_of_not_mem (List.mem_map_of_mem (f := (·.id)) hk) hout
        have hold := hnew k (List.mem_cons_of_mem _ hk)
        simpa [hne] using hold
      rw [putEach, List.foldl_cons, putEmbedding_of_not_mem _ (hnew n List.mem_cons_self), ← putEach,
        ih hnd hfree, List.append_assoc]
      rfl

/-! ### Registering -/

/-- What an engine's ids make of a map: each of them stands for its node, and no proposed id stays that was not
given. Under a document and among the embeddings the given ids stand where the proposed ones stood, which is at
the end unless those were there before. -/
structure Takes (m : VectorMap) (nodes : List Node) (ids : List String) (m' : VectorMap) : Prop where
  given : ∀ n v, (n, v) ∈ nodes.zip ids → m'.nodes.get? v = some n.id
  others : ∀ v, v ∉ ids → m'.nodes.get? v = m.nodes.get? v
  listed : ∀ doc, m'.listed doc = (m.listed doc ++ listing doc nodes).map
    (renamed ((nodes.map (·.id)).zip ids))
  listed_new : ∀ doc, (∀ n ∈ nodes, n.id ∉ m.listed doc) → m'.listed doc =
    m.listed doc ++ ((nodes.zip ids).filter (·.1.document == some doc)).map (·.2)
  embeddings : m'.embeddings = (if m.backend.inProcess then putEach nodes m.embeddings
    else m.embeddings).map fun e => (renamed ((nodes.map (·.id)).zip ids) e.1, e.2)
  embeddings_new : m.backend.inProcess = true → (∀ n ∈ nodes, n.id ∉ m.embeddings.map (·.1)) →
    m'.embeddings = m.embeddings ++ (nodes.zip ids).map fun p => (p.2, p.1.embedding.getD [])
  header : m'.id = m.id ∧ m'.summary = m.summary ∧ m'.backend = m.backend

theorem map_renamed_of_new {l : List String} (h : ∀ v ∈ l, v ∉ pairs.map (·.1)) :
    l.map (renamed pairs) = l := by
  conv_rhs => rw [← List.map_id l]
  exact List.map_congr_left fun v hv => renamed_of_not_mem (h v hv)

theorem map_renamed_embeddings_of_new {l : List (String × Embedding)} (h : ∀ e ∈ l, e.1 ∉ pairs.map (·.1)) :
    l.map (fun e => (renamed pairs e.1, e.2)) = l := by
  conv_rhs => rw [← List.map_id l]
  exact List.map_congr_left fun e he => Prod.ext (renamed_of_not_mem (h e he)) rfl

section Assigned
variable (hlength : ids.length = nodes.length) (hnd : (nodes.map (·.id)).Nodup)
include hlength

theorem olds_zip : ((nodes.map (·.id)).zip ids).map (·.1) = nodes.map (·.id) :=
  List.map_fst_zip (by simp [hlength])

theorem news_zip : ((nodes.map (·.id)).zip ids).map (·.2) = ids :=
  List.map_snd_zip (by simp [hlength])

include hnd

theorem renamed_id {p : Node × String} (hp : p ∈ nodes.zip ids) :
    renamed ((nodes.map (·.id)).zip ids) p.1.id = p.2 := by
  have hin : (p.1.id, p.2) ∈ (nodes.map (·.id)).zip ids := by
    rw [List.zip_map_left]
    exact List.mem_map.mpr ⟨p, hp, rfl⟩
  have holds : (((nodes.map (·.id)).zip ids).map (·.1)).Nodup := by rwa [olds_zip hlength]
  exact renamed_of_mem holds hin

theorem map_renamed_listing (doc : String) :
    (listing doc nodes).map (renamed ((nodes.map (·.id)).zip ids)) =
      ((nodes.zip ids).filter (·.1.document == some doc)).map (·.2) := by
  have hnodes : (nodes.zip ids).map (·.1) = nodes := List.map_fst_zip (by simp [hlength])
  have hlisting : listing doc nodes =
      ((nodes.zip ids).filter (·.1.document == some doc)).map (·.1.id) := by
    conv_lhs => rw [listing, ← hnodes, List.filter_map, List.map_map]
    rfl
  rw [hlisting, List.map_map]
  exact List.map_congr_left fun p hp => renamed_id hlength hnd (List.mem_of_mem_filter hp)

theorem map_renamed_embeddings :
    (nodes.map fun n => (n.id, n.embedding.getD [])).map
        (fun e => (renamed ((nodes.map (·.id)).zip ids) e.1, e.2)) =
      (nodes.zip ids).map fun p => (p.2, p.1.embedding.getD []) := by
  have hnodes : (nodes.zip ids).map (·.1) = nodes := List.map_fst_zip (by simp [hlength])
  conv_lhs => rw [← hnodes, List.map_map, List.map_map]
  rw [hnodes]
  exact List.map_congr_left fun p hp => Prod.ext (renamed_id hlength hnd hp) rfl

theorem takes_of_rebound (hnew : ∀ n ∈ nodes, m.nodes.get? n.id = none) (hentered : m.Entered nodes m₁)
    (h : m₁.Rebound ((nodes.map (·.id)).zip ids) m') : m.Takes nodes ids m' := by
  have hlisted : ∀ doc, m'.listed doc = (m.listed doc ++ listing doc nodes).map
      (renamed ((nodes.map (·.id)).zip ids)) := fun doc => by rw [h.listed, hentered.listed]
  have hembeddings : m'.embeddings = (if m.backend.inProcess then putEach nodes m.embeddings
      else m.embeddings).map fun e => (renamed ((nodes.map (·.id)).zip ids) e.1, e.2) := by
    rw [h.embeddings, hentered.embeddings]
  refine ⟨fun n v hin => ?_, fun v hv => ?_, hlisted, fun doc hdoc => ?_, hembeddings,
    fun hinside hfree => ?_, ?_⟩
  · have hpair : (n.id, v) ∈ (nodes.map (·.id)).zip ids := by
      rw [List.zip_map_left]
      exact List.mem_map.mpr ⟨(n, v), hin, rfl⟩
    rw [h.given (n.id, v) hpair, hentered.mapped, if_pos]
    exact List.mem_map_of_mem (List.of_mem_zip hin).1
  · rw [h.others v (by rwa [news_zip hlength]), olds_zip hlength, hentered.mapped]
    split
    next hin =>
      obtain ⟨n, hn, rfl⟩ := List.mem_map.mp hin
      exact (hnew n hn).symm
    next => rfl
  · rw [hlisted, List.map_append, map_renamed_listing hlength hnd, map_renamed_of_new]
    intro v hv hin
    rw [olds_zip hlength] at hin
    obtain ⟨n, hn, rfl⟩ := List.mem_map.mp hin
    exact hdoc n hn hv
  · rw [hembeddings, if_pos hinside, putEach_of_new hnd hfree, List.map_append,
      map_renamed_embeddings hlength hnd, map_renamed_embeddings_of_new]
    intro e he hin
    rw [olds_zip hlength] at hin
    obtain ⟨n, hn, hid⟩ := List.mem_map.mp hin
    exact hfree n hn (hid ▸ List.mem_map_of_mem he)
  · obtain ⟨hid, hsummary, hbackend⟩ := hentered.header
    rw [← hid, ← hsummary, ← hbackend]
    exact h.header

/-- Entered nodes can be renamed to free ids that differ. -/
theorem renames_of_entered (hids : ids.Nodup) (hfree : ∀ v ∈ ids, m.nodes.get? v = none)
    (hentered : m.Entered nodes m₁) : m₁.Renames ((nodes.map (·.id)).zip ids) := by
  refine ⟨by rwa [olds_zip hlength], by rwa [news_zip hlength], fun p hp => ?_, fun p hp => ?_⟩
  · exact ⟨p.1, by rw [hentered.mapped, if_pos (List.of_mem_zip hp).1]⟩
  · rw [olds_zip hlength, hentered.mapped]
    by_cases hin : p.2 ∈ nodes.map (·.id)
    · exact .inr hin
    · rw [if_neg hin]
      exact .inl (hfree p.2 (List.of_mem_zip hp).2)

end Assigned

/-- An engine gives an id to one entry that a later one still holds. -/
def Awaited (proposed ids : List String) : Prop :=
  ∃ (i j : ℕ) (v : String), i < j ∧ ids[i]? = some v ∧ proposed[j]? = some v

theorem awaited_iff {proposed : List String} (hlength : ids.length = proposed.length) :
    Awaited proposed ids ↔ ¬ (proposed.zip ids).Pairwise fun p q => p.2 ≠ q.1 := by
  rw [List.pairwise_iff_getElem]
  constructor
  · rintro ⟨i, j, v, hij, hi, hj⟩ hall
    obtain ⟨hi, hgiven⟩ := List.getElem?_eq_some_iff.mp hi
    obtain ⟨hj, hproposed⟩ := List.getElem?_eq_some_iff.mp hj
    have hne := hall i j (by simp; omega) (by simp; omega) hij
    simp only [List.getElem_zip] at hne
    exact hne (hgiven.trans hproposed.symm)
  · intro h
    push Not at h
    obtain ⟨i, j, hi, hj, hij, heq⟩ := h
    rw [List.length_zip] at hi hj
    simp only [List.getElem_zip] at heq
    refine ⟨i, j, ids[i], hij, List.getElem?_eq_getElem (by omega), ?_⟩
    rw [heq]
    exact List.getElem?_eq_getElem (by omega)

/-! ### Inserting -/

variable {e : Embedder σ} {engine : VectorEngine σ} {batchSize : ℕ} {s s₁ s₂ : σ}

/-- Once the engine has answered with an id for every entry, registering is renaming. -/
theorem register_engine_run {entries : List VectorEntry} (h : m.enter nodes = .ok (m', entries))
    (hadd : (engine.add entries).run s = (.ok ids, s₁)) (hlength : ids.length = entries.length) :
    (register (some engine) m nodes).run s =
      ((m'.rebindAll ((entries.map (·.id)).zip ids)).map (·, ids), s₁) := by
  have hcall : (engine.add entries).external.run s = (.ok ids, s₁) :=
    (external_run _ s).trans (by rw [hadd])
  have hsame : ¬ ids.length ≠ (entries.map (·.id)).length := by simpa using hlength
  simp only [register, h, liftM_ok_bind]
  rw [run_bind, hcall]
  simp only [hsame, if_false]
  cases m'.rebindAll ((entries.map (·.id)).zip ids) <;> rfl

/-- What an insertion leaves: the map that registering gives, or the old one. -/
def concluded (m : VectorMap) (done : List Node) : Except Failure (VectorMap × List String) → Insertion
  | .ok (m', ids) => ⟨m', done, .ok ids⟩
  | .error f => ⟨m, done, .error f⟩

/-- After the embedding an insertion is the registering, unless an engine is missing. -/
theorem insert_run_of_embedded {bound : Option (VectorEngine σ)}
    {r : Except Failure (VectorMap × List String)} (hbound : (!m.backend.inProcess && bound.isNone) = false)
    (hembed : (embedMissing e batchSize nodes).run s = ((done, .ok ()), s₁))
    (hregister : (register bound m done).run s₁ = (r, s₂)) :
    (insert e bound batchSize m nodes).run s = (m.concluded done r, s₂) := by
  have hregister : StateT.run (register bound m done).run s₁ = (r, s₂) := hregister
  unfold insert
  rw [hbound, if_neg Bool.false_ne_true, runState_bind, hembed]
  dsimp only
  rw [runState_bind, hregister]
  cases r <;> rfl

/-- Without the engine that a backend needs nothing is embedded. -/
theorem insert_run_unbound {bound : Option (VectorEngine σ)}
    (hbound : (!m.backend.inProcess && bound.isNone) = true) : (insert e bound batchSize m nodes).run s =
      (⟨m, nodes, .error (.invalid (.engineNeeded m.id m.backend.name))⟩, s) := by
  rw [insert, if_pos hbound]
  rfl

/-- Where the embedding fails nothing is registered. -/
theorem insert_run_of_not_embedded {bound : Option (VectorEngine σ)} {fault : Failure}
    (hbound : (!m.backend.inProcess && bound.isNone) = false)
    (hembed : (embedMissing e batchSize nodes).run s = ((done, .error fault), s₁)) :
    (insert e bound batchSize m nodes).run s = (⟨m, done, .error fault⟩, s₁) := by
  rw [insert, hbound, if_neg Bool.false_ne_true, runState_bind, hembed]
  rfl

theorem insert_engine_run {r : Except Failure (VectorMap × List String)}
    (hembed : (embedMissing e batchSize nodes).run s = ((done, .ok ()), s₁))
    (hregister : (register (some engine) m done).run s₁ = (r, s₂)) :
    (insert e (some engine) batchSize m nodes).run s = (m.concluded done r, s₂) :=
  insert_run_of_embedded (Bool.and_false _) hembed hregister

theorem map_id_completed {R : String → Embedding → Prop} (h : List.Forall₂ (Completed R) nodes done) :
    done.map (·.id) = nodes.map (·.id) := by
  induction h with
  | nil => rfl
  | cons hn _ ih =>
      rw [List.map_cons, List.map_cons, ih]
      rcases hn with ⟨_, v, _, rfl⟩ | ⟨_, rfl⟩ <;> rfl

/-- An insertion of new nodes into any map, with an engine that gives an id for every entry, all different and
none in use. It succeeds unless an id is given that a later node still holds, and then the map takes the given
ids, each for its own node and with its own embedding. Otherwise the map does not change although the engine has
kept the entries. -/
theorem given_ids_are_taken_unless_awaited (hnd : (nodes.map (·.id)).Nodup)
    (hnew : ∀ n ∈ nodes, m.nodes.get? n.id = none)
    (hembed : (embedMissing e batchSize nodes).run s = ((done, .ok ()), s₁))
    (hadd : (engine.add (done.map entryOf)).run s₁ = (.ok ids, s₂)) (hlength : ids.length = nodes.length)
    (hids : ids.Nodup) (hfree : ∀ v ∈ ids, m.nodes.get? v = none) :
    List.Forall₂ (Completed fun _ v => v.length = e.dim) nodes done ∧
    (¬ Awaited (nodes.map (·.id)) ids → ∃ m', m.Takes done ids m' ∧
      (insert e (some engine) batchSize m nodes).run s = (⟨m', done, .ok ids⟩, s₂)) ∧
    (Awaited (nodes.map (·.id)) ids → ∃ v ∈ nodes.map (·.id),
      (insert e (some engine) batchSize m nodes).run s =
        (⟨m, done, .error (.repeated (.vectorId v v))⟩, s₂)) := by
  have hcompleted := embedMissing_completes hembed
  have hsame : done.map (·.id) = nodes.map (·.id) := map_id_completed hcompleted
  have hdone : ids.length = done.length := by rw [hlength, hcompleted.length_eq]
  have hnd' : (done.map (·.id)).Nodup := by rwa [hsame]
  have hnew' : ∀ n ∈ done, m.nodes.get? n.id = none := by
    intro n hn
    have hin : n.id ∈ nodes.map (·.id) := hsame ▸ List.mem_map_of_mem (f := (·.id)) hn
    obtain ⟨k, hk, hid⟩ := List.mem_map.mp hin
    exact hid ▸ hnew k hk
  obtain ⟨m₁, henter, hentered⟩ := enter_new hnd' hnew'
  have hrenames := renames_of_entered hdone hnd' hids hfree hentered
  have hregister := register_engine_run henter hadd (by simpa using hdone)
  rw [map_id_entryOf] at hregister
  have hinsert := insert_engine_run (m := m) hembed hregister
  rw [awaited_iff (by simpa using hlength), ← hsame, not_not]
  refine ⟨hcompleted, fun hclear => ?_, fun hawaited => ?_⟩
  · obtain ⟨m', hrebind, hm'⟩ := rebindAll_of_clear hrenames hclear
    rw [hrebind] at hinsert
    exact ⟨m', takes_of_rebound hdone hnd' hnew' hentered hm', hinsert⟩
  · obtain ⟨v, holder, hv, hholder, hrebind⟩ := rebindAll_of_awaited hrenames hawaited
    rw [olds_zip hdone] at hv
    rw [hentered.mapped, if_pos hv] at hholder
    cases hholder
    rw [hrebind] at hinsert
    exact ⟨v, hv, hinsert⟩

/-- The map of an older node of the document. -/
def olderMap : VectorMap :=
  { id := "m", nodes := .ofList [("o", "o")], documents := .ofList [("d", ["o"])], embeddings := [("o", [1])] }

/-- A store that keeps every entry under its id with an `x` before it. -/
def leadingX : VectorEngine VectorStore :=
  EngineFaults.apply { lead := "x" } (VectorStore.engine ⟨fun s => s, fun s _ => s⟩)

def zeroEmbedder : Embedder VectorStore := ⟨1, fun texts => pure (texts.map fun _ => [0])⟩

def plainA : Node := { id := "a", text := "", embedding := some [2], document := some "d" }

def plainXA : Node := { id := "xa", text := "", document := some "d" }

/-- The node with the longer id comes first, so that its id is free when the other one takes it. -/
theorem given_ids_are_taken_unless_awaited_longerFirst : ([plainXA, plainA].map (·.id)).Nodup ∧
    ¬ Awaited ([plainXA, plainA].map (·.id)) ["xxa", "xa"] ∧ ∃ m' s,
      (insert zeroEmbedder (some leadingX) 64 olderMap [plainXA, plainA]).run { dimension := 1 } =
        (⟨m', [{ plainXA with embedding := some [0] }, plainA], .ok ["xxa", "xa"]⟩, s) ∧
      m'.nodes.get? "xxa" = some "xa" ∧ m'.nodes.get? "xa" = some "a" ∧ m'.nodes.get? "a" = none ∧
      m'.listed "d" = ["o", "xxa", "xa"] ∧
      m'.embeddings = [("o", [1]), ("xxa", [0]), ("xa", [2])] := by
  have hnd : ([plainXA, plainA].map (·.id)).Nodup := by decide
  have hclear : ¬ Awaited ([plainXA, plainA].map (·.id)) ["xxa", "xa"] := by
    have hiff := awaited_iff (show ["xxa", "xa"].length = ([plainXA, plainA].map (·.id)).length from rfl)
    rw [hiff]
    decide
  have hembed : (embedMissing zeroEmbedder 64 [plainXA, plainA]).run { dimension := 1 } =
      (([{ plainXA with embedding := some [0] }, plainA], .ok ()), { dimension := 1 }) := by
    have hgroups : groups (max 64 1) ([plainXA, plainA].filter (·.embedding.isNone)) = [[plainXA]] := by
      simp [groups, plainXA, plainA]
    rw [embedMissing, hgroups]
    rfl
  have hadd : ∃ s, (leadingX.add ([{ plainXA with embedding := some [0] }, plainA].map entryOf)).run
      { dimension := 1 } = (.ok ["xxa", "xa"], s) := ⟨_, rfl⟩
  obtain ⟨s, hadd⟩ := hadd
  have hnew : ∀ n ∈ [plainXA, plainA], olderMap.nodes.get? n.id = none := by decide
  obtain ⟨_, htakes, _⟩ := given_ids_are_taken_unless_awaited hnd hnew hembed hadd rfl (by decide) (by decide)
  obtain ⟨m', hm', hrun⟩ := htakes hclear
  refine ⟨hnd, hclear, m', s, hrun, hm'.given _ "xxa" List.mem_cons_self, hm'.given plainA "xa" ?_, ?_, ?_, ?_⟩
  · exact List.mem_cons_of_mem _ List.mem_cons_self
  · exact hm'.others "a" (by decide)
  · exact hm'.listed_new "d" (by decide)
  · exact hm'.embeddings_new rfl (by decide)

/-- The other way round the node with the longer id still waits for its own, and the insertion fails after the
store has kept both vectors. -/
theorem insertion_refuses_awaited_id : ([plainA, plainXA].map (·.id)).Nodup ∧
    (∀ n ∈ [plainA, plainXA], olderMap.nodes.get? n.id = none) ∧ ["xa", "xxa"].Nodup ∧
    (∀ v ∈ ["xa", "xxa"], olderMap.nodes.get? v = none) ∧ ∃ s,
      (leadingX.add ([plainA, { plainXA with embedding := some [0] }].map entryOf)).run { dimension := 1 } =
        (.ok ["xa", "xxa"], s) ∧ s.entries.map (·.id) = ["xa", "xxa"] ∧
      (insert zeroEmbedder (some leadingX) 64 olderMap [plainA, plainXA]).run { dimension := 1 } =
        (⟨olderMap, [plainA, { plainXA with embedding := some [0] }], .error (.repeated (.vectorId "xa" "xa"))⟩,
          s) := by
  have hgroups : groups (max 64 1) ([plainA, plainXA].filter (·.embedding.isNone)) = [[plainXA]] := by
    simp [groups, plainXA, plainA]
  have hembed : (embedMissing zeroEmbedder 64 [plainA, plainXA]).run { dimension := 1 } =
      (([plainA, { plainXA with embedding := some [0] }], .ok ()), { dimension := 1 }) := by
    rw [embedMissing, hgroups]
    rfl
  refine ⟨by decide, by decide, by decide, by decide, _, rfl, rfl, ?_⟩
  exact insert_engine_run hembed rfl

end CorpusIndex.VectorMap
