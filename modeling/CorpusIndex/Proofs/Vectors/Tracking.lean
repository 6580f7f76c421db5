import CorpusIndex.Postprocess
import CorpusIndex.Proofs.Action
import CorpusIndex.Proofs.Embedding.Ranking
import CorpusIndex.Proofs.NodeStore
import CorpusIndex.Proofs.Vectors.Edits
import CorpusIndex.Proofs.Vectors.Retrieval
import Mathlib.Data.List.Induction

/-!
# Recorded scores and a cutoff

Hits come one for each vector, and their scores are recorded one for each node, so that the last hit of a
node decides what is recorded. The record is that of every hit exactly where the hits of a node agree.
Descending scores leave the lowest in the record, and a cutoff by it keeps the nodes none of whose hits is
below. Hits agree where no node has two vectors, which every run of edits keeps that gives no node a
second vector id and no vector id a second embedding.
-/
namespace CorpusIndex

variable {σ : Type} {store : NodeStore} {e : Embedder σ} {engine : Option (VectorEngine σ)} {most : ℕ}
  {filter : Option MetadataFilter} {q : Query} {s s' t : σ}

/-! ### Recorded scores -/

/-- The score of the hit reaches the cutoff. -/
def Hit.reaches (cutoff : Float32) (h : Hit) : Bool := h.score.any (cutoff ≤ ·)

namespace Retrieval

/-- The hits `l`, each with its score recorded under the id of its node. -/
def ofScored (l : List (Node × Float32)) : Retrieval :=
  l.foldl (fun r c => r.addScored c.1.id c.1 c.2) {}

/-- The recorded score of a node is that of each of its hits. -/
def Tracks (r : Retrieval) : Prop := ∀ h ∈ r.hits, r.similarity.find? h.node.id = h.score

/-- The hits of a node have one score. -/
def Agrees (r : Retrieval) : Prop :=
  ∀ h ∈ r.hits, ∀ h' ∈ r.hits, h.node.id = h'.node.id → h.score = h'.score

/-- The hits that a cutoff by recorded scores keeps. -/
def cut (r : Retrieval) (cutoff : Float32) : Except Failure (List Hit) :=
  (Postprocessor.similarity cutoff).run { similarity := some r.similarity } r.hits

/-- Every hit of the node reaches the cutoff. -/
def nodeReaches (r : Retrieval) (cutoff : Float32) (id : String) : Bool :=
  (r.hits.filter (·.node.id = id)).all (·.reaches cutoff)

variable {l : List (Node × Float32)} {c : Node × Float32} {r : Retrieval} {cutoff : Float32}

theorem cut_eq (r : Retrieval) (cutoff : Float32) : r.cut cutoff =
    .ok (r.hits.filter fun h => (r.similarity.find? h.node.id).any (cutoff ≤ ·)) := rfl

theorem ofScored_concat (l : List (Node × Float32)) (c : Node × Float32) :
    ofScored (l ++ [c]) = (ofScored l).addScored c.1.id c.1 c.2 := List.foldl_append

theorem hits_ofScored (l : List (Node × Float32)) :
    (ofScored l).hits = l.map fun c => ⟨c.1, some c.2⟩ := by
  induction l using List.reverseRecOn with
  | nil => rfl
  | append_singleton l c ih =>
      rw [ofScored_concat, List.map_append, ← ih]
      rfl

/-- The record holds the score of the last hit of the node. -/
theorem find?_ofScored (hc : c ∈ l) : ∃ before last after, l = before ++ last :: after ∧
    last.1.id = c.1.id ∧ (∀ d ∈ after, d.1.id ≠ c.1.id) ∧
      (ofScored l).similarity.find? c.1.id = some last.2 := by
  induction l using List.reverseRecOn with
  | nil => cases hc
  | append_singleton l d ih =>
      rw [ofScored_concat]
      by_cases hd : d.1.id = c.1.id
      · refine ⟨l, d, [], rfl, hd, by simp, ?_⟩
        rw [← hd]
        exact SortedMap.get?_insert_self ..
      · have hcl : c ∈ l := by
          rcases List.mem_append.mp hc with hc | hc
          · exact hc
          · exact (hd (by rw [List.mem_singleton.mp hc])).elim
        obtain ⟨before, last, after, rfl, hlast, hafter, hfind⟩ := ih hcl
        refine ⟨before, last, after ++ [d], by simp, hlast, ?_, ?_⟩
        · intro x hx
          rcases List.mem_append.mp hx with hx | hx
          · exact hafter x hx
          · rw [List.mem_singleton.mp hx]
            exact hd
        · exact (SortedMap.get?_insert_of_ne _ _ (Ne.symm hd)).trans hfind

theorem tracks_ofScored_iff (l : List (Node × Float32)) : (ofScored l).Tracks ↔ (ofScored l).Agrees := by
  constructor
  · intro htracks h hh h' hh' heq
    rw [← htracks h hh, heq, htracks h' hh']
  · intro hagrees h hh
    have hmem := hh
    rw [hits_ofScored, List.mem_map] at hmem
    obtain ⟨c, hc, rfl⟩ := hmem
    obtain ⟨before, last, after, rfl, hlast, _, hfind⟩ := find?_ofScored hc
    have hhit : (⟨last.1, some last.2⟩ : Hit) ∈ (ofScored (before ++ last :: after)).hits := by
      rw [hits_ofScored]
      simp
    exact hfind.trans (hagrees _ hhit _ hh hlast)

theorem Tracks.cut (h : r.Tracks) (cutoff : Float32) :
    r.cut cutoff = .ok (r.hits.filter (·.reaches cutoff)) := by
  rw [cut_eq]
  refine congrArg Except.ok (List.filter_congr fun x hx => ?_)
  rw [h x hx]
  rfl

theorem nodeReaches_ofScored {id : String} :
    (ofScored l).nodeReaches cutoff id = true ↔ ∀ c ∈ l, c.1.id = id → cutoff ≤ c.2 := by
  simp [nodeReaches, hits_ofScored, Hit.reaches, imp_iff_not_or]

/-- In descending order the lowest score of a node is the recorded one. -/
theorem cut_ofScored (hl : l.Pairwise fun c d => d.2 ≤ c.2) (cutoff : Float32) :
    (ofScored l).cut cutoff =
      .ok ((ofScored l).hits.filter fun h => (ofScored l).nodeReaches cutoff h.node.id) := by
  rw [cut_eq]
  refine congrArg Except.ok (List.filter_congr fun h hh => ?_)
  rw [hits_ofScored, List.mem_map] at hh
  obtain ⟨c, hc, rfl⟩ := hh
  obtain ⟨before, last, after, rfl, hlast, hafter, hfind⟩ := find?_ofScored hc
  rw [hfind, Option.any_some, Bool.eq_iff_iff, decide_eq_true_iff, nodeReaches_ofScored]
  constructor
  · intro hcut d hd hid
    rcases List.mem_append.mp hd with hd | hd
    · exact score_le_trans hcut ((List.pairwise_append.mp hl).2.2 d hd last List.mem_cons_self)
    · rcases List.mem_cons.mp hd with rfl | hd
      · exact hcut
      · exact (hafter d hd hid).elim
  · intro h
    exact h last (by simp) hlast

/-- One hit for a node leaves nothing to agree on. -/
theorem agrees_of_nodup (h : (l.map (·.1.id)).Nodup) : (ofScored l).Agrees := by
  intro x hx y hy heq
  rw [hits_ofScored, List.mem_map] at hx hy
  obtain ⟨c, hc, rfl⟩ := hx
  obtain ⟨d, hd, rfl⟩ := hy
  rw [List.inj_on_of_nodup_map h hc hd heq]

end Retrieval

/-! ### Retrieval -/

/-- An engine answers no vector id twice. -/
def VectorEngine.AnswersOnce (g : VectorEngine σ) : Prop :=
  ∀ v most filter s found s', (g.query v most filter).run s = (.ok found, s') → (found.map (·.1)).Nodup

namespace VectorMap

variable {m m' : VectorMap} {v : Embedding} {found : List (String × Float32)} {r : Retrieval}

/-- A vector id and the stored node it leads to, with a score. -/
def Scored (m : VectorMap) (store : NodeStore) (x : String × Float32) (c : Node × Float32) : Prop :=
  m.nodes.get? x.1 = some c.1.id ∧ store.nodes.get? c.1.id = some c.1 ∧ c.2 = x.2

/-- Every vector that is kept leads to a stored node. -/
def Leads (m : VectorMap) (store : NodeStore) : Prop :=
  ∀ x ∈ m.embeddings, ∃ id n, m.nodes.get? x.1 = some id ∧ store.nodes.get? id = some n

/-- The hits of found vectors, one after another. -/
def gather (m : VectorMap) (store : NodeStore) (found : List (String × Float32)) (out : Retrieval) :
    Action σ Retrieval :=
  found.foldlM
    (fun out found => do
      let id ← m.nodeOf found.1
      return out.addScored id (← store.resolve id) found.2)
    out

/-- A retrieval gathers what a search for the query's embedding found. -/
theorem retrieve_run (hfull : m.isEmpty = false) (hembed : (q.embed e).run s = (.ok v, t))
    (hsearch : (m.search store engine most filter v).run t = (.ok found, s')) :
    (m.retrieve store e engine most filter q).run s = (m.gather store found {}).run s' := by
  unfold retrieve
  rw [hfull, if_neg Bool.false_ne_true, run_bind, hembed]
  dsimp only
  rw [run_bind, hsearch]
  rfl

theorem gather_eq_ok (k : store.Keyed) (out : Retrieval)
    (h : (m.gather store found out).run s = (.ok r, s')) :
    s' = s ∧ ∃ l, List.Forall₂ (m.Scored store) found l ∧
      r = l.foldl (fun r c => r.addScored c.1.id c.1 c.2) out := by
  induction found generalizing out with
  | nil =>
      cases h
      exact ⟨rfl, [], .nil, rfl⟩
  | cons x found ih =>
      rw [gather, List.foldlM_cons] at h
      obtain ⟨out', t, hstep, hrest⟩ := run_bind_eq_ok.mp h
      obtain ⟨id, t₁, hid, hadd⟩ := run_bind_eq_ok.mp hstep
      obtain ⟨n, t₂, hn, hout⟩ := run_bind_eq_ok.mp hadd
      obtain ⟨hmapped, rfl⟩ := run_checked_eq_ok.mp hid
      obtain ⟨hresolve, rfl⟩ := run_checked_eq_ok.mp hn
      cases hout
      have hstored := NodeStore.resolve_eq_ok.mp hresolve
      obtain rfl : n.id = id := k id n hstored
      obtain ⟨hs, l, hl, hr⟩ := ih (out.addScored n.id n x.2) hrest
      exact ⟨hs, (n, x.2) :: l, .cons ⟨nodeOf_eq_ok.mp hmapped, hstored, rfl⟩ hl, hr⟩

theorem gather_run
    (h : ∀ x ∈ found, ∃ id n, m.nodes.get? x.1 = some id ∧ store.nodes.get? id = some n)
    (out : Retrieval) (s : σ) : ∃ r, (m.gather store found out).run s = (.ok r, s) := by
  induction found generalizing out with
  | nil => exact ⟨out, rfl⟩
  | cons x found ih =>
      obtain ⟨id, n, hid, hn⟩ := h x List.mem_cons_self
      rw [gather, List.foldlM_cons, nodeOf_eq_ok.mpr hid, liftM_ok_bind, NodeStore.resolve_eq_ok.mpr hn, liftM_ok_bind]
      exact ih (fun y hy => h y (List.mem_cons_of_mem x hy)) (out.addScored id n x.2)

/-- What is retrieved was found by a search, unless the map is empty. -/
theorem retrieve_eq_ok (k : store.Keyed)
    (h : (m.retrieve store e engine most filter q).run s = (.ok r, s')) : r = .ofScored [] ∨
    ∃ v t found l, (q.embed e).run s = (.ok v, t) ∧
      (m.search store engine most filter v).run t = (.ok found, s') ∧
      List.Forall₂ (m.Scored store) found l ∧ r = .ofScored l := by
  unfold retrieve at h
  split at h
  next =>
    cases h
    exact .inl rfl
  next =>
    obtain ⟨v, t, hembed, h⟩ := run_bind_eq_ok.mp h
    obtain ⟨found, t', hsearch, h⟩ := run_bind_eq_ok.mp h
    obtain ⟨rfl, l, hl, rfl⟩ := gather_eq_ok k {} h
    exact .inr ⟨v, t, found, l, hembed, hsearch, hl, rfl⟩

/-- A search in the process ranks some of the vectors that are kept. -/
theorem search_eq_ok (h : (m.search store none most filter v).run s = (.ok found, s')) :
    ∃ kept, kept.Sublist m.embeddings ∧ found = nearest v kept most none := by
  unfold search at h
  dsimp only at h
  split at h
  next =>
    cases hp : m.passing store filter with
    | error f =>
        rw [hp] at h
        cases h
    | ok kept =>
        rw [hp] at h
        cases h
        refine ⟨kept, ?_, rfl⟩
        cases filter with
        | none =>
            cases hp
            exact List.Sublist.refl _
        | some f => exact sublist_of_filterM_eq_ok hp
  next => cases h

/-- A search in the process finds vectors that lead to stored nodes, and their hits are gathered. -/
theorem retrieve_of_leads (hleads : m.Leads store) (hbackend : m.backend.inProcess = true)
    (hembed : (q.embed e).run s = (.ok v, t)) :
    ∃ r s', (m.retrieve store e none most filter q).run s = (.ok r, s') := by
  have hpassing : ∃ kept, m.passing store filter = .ok kept := by
    cases filter with
    | none => exact ⟨_, rfl⟩
    | some f =>
        refine ⟨_, filterM_eq_ok (p := fun x => (do
          let n ← store.resolve (← m.nodeOf x.1)
          return f.accepts n.metadata : Except Failure Bool).toOption.getD false) fun x hx => ?_⟩
        obtain ⟨id, n, hid, hn⟩ := hleads x hx
        rw [nodeOf_eq_ok.mpr hid, ok_bind, NodeStore.resolve_eq_ok.mpr hn]
        rfl
  obtain ⟨kept, hkept⟩ := hpassing
  have hsearch : (m.search store none most filter v).run t = (.ok (nearest v kept most none), t) := by
    simp only [search, hbackend, if_true, hkept]
    rfl
  obtain ⟨kept', hsub, heq⟩ := search_eq_ok hsearch
  have hfound : ∀ x ∈ nearest v kept most none,
      ∃ id n, m.nodes.get? x.1 = some id ∧ store.nodes.get? id = some n := by
    intro x hx
    obtain ⟨y, hy, hsame⟩ := List.mem_map.mp (mem_nearest (heq ▸ hx))
    rw [← hsame]
    exact hleads y (hsub.subset hy)
  cases hfull : m.isEmpty with
  | true =>
      unfold retrieve
      rw [hfull, if_pos rfl]
      exact ⟨_, _, rfl⟩
  | false =>
      obtain ⟨r, hr⟩ := gather_run hfound {} t
      exact ⟨r, t, (retrieve_run hfull hembed hsearch).trans hr⟩

/-! ### One vector for each node -/

/-- No node has two vector ids, and no vector id has two embeddings. -/
structure Single (m : VectorMap) : Prop where
  node : ∀ v w id, m.nodes.get? v = some id → m.nodes.get? w = some id → v = w
  embedding : (m.embeddings.map (·.1)).Nodup

/-- The call gives a node a second vector id, or a vector id a second embedding. -/
def Edit.Doubles (m : VectorMap) : Edit → Prop
  | .add n vectorId => ∃ v, v ≠ vectorId.getD n.id ∧ m.nodes.get? v = some n.id
  | .embed _ _ => False
  | .rebind old new => old ≠ new ∧ old ∈ m.embeddings.map (·.1) ∧ new ∈ m.embeddings.map (·.1)
  | .deleteDocument _ => False

/-- None of the edits doubles anything in the map it meets. -/
def NeverDoubles (m : VectorMap) : List Edit → Prop
  | [] => True
  | e :: edits => ¬ e.Doubles m ∧ (e.run m).NeverDoubles edits

theorem keys_putEmbedding (v : String) (d : Embedding) (l : List (String × Embedding)) :
    (putEmbedding v d l).map (·.1) =
      if v ∈ l.map (·.1) then l.map (·.1) else l.map (·.1) ++ [v] := by
  induction l with
  | nil => rfl
  | cons x l ih =>
      unfold putEmbedding
      split
      next heq => simp [heq]
      next hne =>
        rw [List.map_cons, ih, List.map_cons]
        by_cases hv : v ∈ l.map (·.1)
        · rw [if_pos hv, if_pos (List.mem_cons_of_mem _ hv)]
        · rw [if_neg hv, if_neg (List.not_mem_cons_of_ne_of_not_mem (Ne.symm hne) hv), List.cons_append]

namespace Single
variable {n : Node} {vectorId : Option String} {doc u old new : String} {vs : List String}

theorem empty (id : String) (summary : Option String) (backend : Backend) :
    ({ id, summary, backend } : VectorMap).Single where
  node v w id hv _ := by cases hv
  embedding := List.nodup_nil

theorem add (hm : m.Single) (h : m.add n vectorId = .ok (m', u))
    (hone : ¬ (Edit.add n vectorId).Doubles m) : m'.Single := by
  obtain ⟨hu, hembeddings, ⟨_, rfl⟩ | ⟨_, hnodes, _⟩⟩ := add_eq_ok h
  · exact hm
  · have hnew (v : String) (hv : v ≠ u) : m.nodes.get? v ≠ some n.id :=
      fun hid => hone ⟨v, hu ▸ hv, hid⟩
    refine ⟨fun v w id hv hw => ?_, hembeddings ▸ hm.embedding⟩
    rw [hnodes, SortedMap.get?_insert_eq_some] at hv hw
    rcases hv with ⟨rfl, rfl⟩ | ⟨hvu, hv⟩ <;> rcases hw with ⟨rfl, hid⟩ | ⟨hwu, hw⟩
    · rfl
    · exact (hnew w hwu hw).elim
    · exact (hnew v hvu (hid ▸ hv)).elim
    · exact hm.node v w id hv hw

theorem embed (hm : m.Single) (u : String) (d : Embedding) : (m.embed u d).Single := by
  refine ⟨hm.node, ?_⟩
  change ((putEmbedding u d m.embeddings).map (·.1)).Nodup
  rw [keys_putEmbedding]
  split
  next => exact hm.embedding
  next hu => exact (List.nodup_cons.mpr ⟨hu, hm.embedding⟩).perm (List.perm_append_singleton u _).symm

theorem rebind (hm : m.Single) (h : m.rebind old new = .ok m')
    (hone : ¬ (Edit.rebind old new).Doubles m) : m'.Single := by
  obtain ⟨_, rfl⟩ | ⟨id, hne, _, hold, hnodes, _⟩ := rebind_eq_ok h
  · exact hm
  · constructor
    · intro v w i hv hw
      rw [hnodes, SortedMap.get?_insert_eq_some, SortedMap.get?_erase_eq_some] at hv hw
      rcases hv with ⟨rfl, rfl⟩ | ⟨_, hvo, hv⟩ <;> rcases hw with ⟨rfl, hid⟩ | ⟨_, hwo, hw⟩
      · rfl
      · exact (hwo (hm.node w old _ hw hold)).elim
      · exact (hvo (hm.node v old _ hv (hid ▸ hold))).elim
      · exact hm.node v w i hv hw
    · -- one of the two names is not embedded, so the new one is given once
      rw [embeddings_rebind h hne, List.map_map]
      have hkeys : m.embeddings.map (Prod.fst ∘ fun e => (if e.1 = old then new else e.1, e.2)) =
          (m.embeddings.map (·.1)).map fun v => if v = old then new else v := by
        rw [List.map_map]
        rfl
      rw [hkeys]
      refine hm.embedding.map_on fun v hv w hw heq => ?_
      have hboth (hold : old ∈ m.embeddings.map (·.1)) : new ∉ m.embeddings.map (·.1) :=
        fun hnew => hone ⟨hne, hold, hnew⟩
      grind

theorem deleteDocument (hm : m.Single) (h : m.deleteDocument doc = .ok (m', vs)) : m'.Single := by
  have hdel := fansOut_of_deleteDocument h
  refine ⟨fun v w id hv hw => ?_, ?_⟩
  · rw [hdel.nodes] at hv hw
    split at hv
    next => cases hv
    next =>
      split at hw
      next => cases hw
      next => exact hm.node v w id hv hw
  · rw [hdel.embeddings]
    exact hm.embedding.sublist (List.filter_sublist.map _)

/-- An edit that doubles nothing keeps one vector for each node. -/
theorem run (hm : m.Single) {e : Edit} (hone : ¬ e.Doubles m) : (e.run m).Single := by
  rcases run_cases m e with hsame | ⟨n, vectorId, u, rfl, hadd⟩ | ⟨u, d, rfl, hembed⟩ |
    ⟨old, new, rfl, hrebind⟩ | ⟨doc, vs, rfl, hdel⟩
  · rwa [hsame]
  · exact hm.add hadd hone
  · rw [hembed]
    exact hm.embed u d
  · exact hm.rebind hrebind hone
  · exact hm.deleteDocument hdel

theorem after (hm : m.Single) {edits : List Edit} (hone : m.NeverDoubles edits) :
    (m.after edits).Single := by
  induction edits generalizing m with
  | nil => exact hm
  | cons e edits ih => exact ih (hm.run hone.1) hone.2

end Single

/-! ### What is retrieved -/

theorem scores_of_scored {l : List (Node × Float32)} (h : List.Forall₂ (m.Scored store) found l) :
    l.map (·.2) = found.map (·.2) := by
  induction h with
  | nil => rfl
  | cons hx _ ih => rw [List.map_cons, List.map_cons, ih, hx.2.2]

theorem ids_of_scored {l : List (Node × Float32)} (h : List.Forall₂ (m.Scored store) found l) :
    (l.map (·.1.id)).map some = (found.map (·.1)).map m.nodes.get? := by
  induction h with
  | nil => rfl
  | cons hx _ ih => rw [List.map_cons, List.map_cons, List.map_cons, List.map_cons, ih, hx.1]

/-- Vectors found once each lead to as many nodes. -/
theorem Single.nodup (hm : m.Single) {l : List (Node × Float32)}
    (h : List.Forall₂ (m.Scored store) found l) (hfound : (found.map (·.1)).Nodup) :
    (l.map (·.1.id)).Nodup := by
  apply List.Nodup.of_map some
  rw [ids_of_scored h]
  refine hfound.map_on fun v hv w hw heq => ?_
  have hmapped : m.nodes.get? v ∈ (l.map (·.1.id)).map some := by
    rw [ids_of_scored h]
    exact List.mem_map_of_mem hv
  obtain ⟨id, _, hid⟩ := List.mem_map.mp hmapped
  exact hm.node v w id hid.symm (heq.symm.trans hid.symm)

/-- Where a search in the process ranks numbers, a cutoff keeps the hits of the nodes all of whose hits
reach it. -/
theorem cut_of_numbers (k : store.Keyed)
    (h : (m.retrieve store e none most filter q).run s = (.ok r, s'))
    (hnum : ∀ v, ((q.embed e).run s).1 = .ok v → ∀ x ∈ m.embeddings, (cosine v x.2).isNaN = false)
    (cutoff : Float32) :
    r.cut cutoff = .ok (r.hits.filter fun h => r.nodeReaches cutoff h.node.id) := by
  rcases retrieve_eq_ok k h with rfl | ⟨v, t, found, l, hembed, hsearch, hl, rfl⟩
  · rfl
  · obtain ⟨kept, hsub, rfl⟩ := search_eq_ok hsearch
    have hfound : (nearest v kept most none).Pairwise fun x y => y.2 ≤ x.2 :=
      nearest_descending fun x hx => hnum v (by rw [hembed]) x (hsub.subset hx)
    have hscores : (l.map (·.2)).Pairwise fun a b => b ≤ a := by
      rw [scores_of_scored hl, List.pairwise_map]
      exact hfound
    exact Retrieval.cut_ofScored (List.pairwise_map.mp hscores) cutoff

/-- Where each node has one vector, what is recorded of a node is what its hit scored. -/
theorem Single.tracks (hm : m.Single) (k : store.Keyed) (hengine : ∀ g ∈ engine, g.AnswersOnce)
    (h : (m.retrieve store e engine most filter q).run s = (.ok r, s')) : r.Tracks := by
  rcases retrieve_eq_ok k h with rfl | ⟨v, t, found, l, _, hsearch, hl, rfl⟩
  · intro x hx
    cases hx
  · have hfound : (found.map (·.1)).Nodup := by
      cases engine with
      | none =>
          obtain ⟨kept, hsub, rfl⟩ := search_eq_ok hsearch
          exact nearest_nodup (hm.embedding.sublist (hsub.map _))
      | some g =>
          change (g.query v most filter).external.run t = (.ok found, s') at hsearch
          rw [external_run] at hsearch
          rcases hquery : (g.query v most filter).run t with ⟨_ | vs, t'⟩
          · rw [hquery] at hsearch
            cases hsearch
          · rw [hquery] at hsearch
            cases hsearch
            exact hengine g rfl v most filter t found s' hquery
    exact (Retrieval.tracks_ofScored_iff l).mpr (Retrieval.agrees_of_nodup (hm.nodup hl hfound))

/-- What a cutoff reads of a retrieval. In the process one succeeds where every vector leads to a stored
node and the scores are numbers. The recorded scores are those of all hits exactly where the hits of a node
agree, and a cutoff then keeps the hits that reach it; otherwise, among numbers, it keeps the hits of the
nodes all of whose hits reach it. After edits that double nothing the recorded scores are those of all hits. -/
theorem cutoff_reads_lowest_score (k : store.Keyed) (s : σ) :
    (m.Leads store → m.backend.inProcess = true → (∃ v t, (q.embed e).run s = (.ok v, t)) →
      (∀ v, ((q.embed e).run s).1 = .ok v → ∀ x ∈ m.embeddings, (cosine v x.2).isNaN = false) →
        ∃ r s', (m.retrieve store e none most filter q).run s = (.ok r, s')) ∧
    (∀ r s', (m.retrieve store e engine most filter q).run s = (.ok r, s') →
      (r.Tracks ↔ r.Agrees) ∧
        (r.Tracks → ∀ cutoff, r.cut cutoff = .ok (r.hits.filter (·.reaches cutoff)))) ∧
    (∀ r s', (m.retrieve store e none most filter q).run s = (.ok r, s') →
      (∀ v, ((q.embed e).run s).1 = .ok v → ∀ x ∈ m.embeddings, (cosine v x.2).isNaN = false) →
        ∀ cutoff, r.cut cutoff = .ok (r.hits.filter fun h => r.nodeReaches cutoff h.node.id)) ∧
    (∀ id summary backend edits, m = after { id, summary, backend } edits →
      NeverDoubles { id, summary, backend } edits → (∀ g ∈ engine, g.AnswersOnce) →
        ∀ r s', (m.retrieve store e engine most filter q).run s = (.ok r, s') → r.Tracks) := by
  refine ⟨?_, ?_, ?_, ?_⟩
  · intro hleads hbackend ⟨v, t, hembed⟩ _
    exact retrieve_of_leads hleads hbackend hembed
  · intro r s' h
    have hiff : r.Tracks ↔ r.Agrees := by
      rcases retrieve_eq_ok k h with rfl | ⟨_, _, _, l, _, _, _, rfl⟩
      · exact Retrieval.tracks_ofScored_iff []
      · exact Retrieval.tracks_ofScored_iff l
    exact ⟨hiff, fun htracks cutoff => htracks.cut cutoff⟩
  · intro r s' h hnum cutoff
    exact cut_of_numbers k h hnum cutoff
  · intro id summary backend edits hm hone hengine r s' h
    have hsingle : m.Single := hm ▸ (Single.empty id summary backend).after hone
    exact hsingle.tracks k hengine h

/-! ### Two vectors of one node -/

/-- After the edits, a search in the process whose vectors lead to stored nodes and whose scores are numbers
records for a node what each of its hits scored, and a cutoff keeps the hits that reach it. -/
def RecordsEach (edits : List Edit) : Prop :=
  ∀ (store : NodeStore) (e : Embedder Unit) (q : Query) (most : ℕ) (filter : Option MetadataFilter)
    (r : Retrieval),
    store.Keyed → (after { id := "m" } edits).Leads store →
      (∀ id ∈ (after { id := "m" } edits).nodeIds, store.contains id = true) →
      (∀ v, ((q.embed e).run ()).1 = .ok v →
        ∀ x ∈ (after { id := "m" } edits).embeddings, (cosine v x.2).isNaN = false) →
      ((after { id := "m" } edits).retrieve store e none most filter q).run () = (.ok r, ()) →
        r.Tracks ∧ ∀ cutoff, r.cut cutoff = .ok (r.hits.filter (·.reaches cutoff))

def lone : Node := { id := "a", text := "" }

def loneStore : NodeStore := ({} : NodeStore).put lone

/-- A node under two vector ids. -/
def registeredTwice : List Edit :=
  [.add lone (some "v"), .add lone (some "w"), .embed "v" [1], .embed "w" [0]]

/-- A node moved to a vector id that has an embedding already. -/
def movedOnto : List Edit := [.add lone none, .embed "a" [1], .embed "x" [0], .rebind "a" "x"]

/-- A node that keeps one vector under changing ids. -/
def movedAway : List Edit :=
  [.add lone none, .embed "a" [0], .rebind "a" "v", .add lone (some "v"), .embed "v" [1]]

def alongOne : Query := { text := "", embedding := some [1] }

/-- An embedder that no query with an embedding needs. -/
def spare : Embedder Unit := { dim := 1, embedBatch := fun _ => pure [] }

theorem keyed_loneStore : loneStore.Keyed := NodeStore.keyed_empty.put

theorem cosine_one_one : cosine [1] [1] = 1 := by decide +kernel

theorem cosine_one_zero : cosine [1] [0] = 0 := by decide +kernel

theorem nearest_alongOne (v w : String) : nearest [1] [(v, [1]), (w, [0])] 2 none = [(v, 1), (w, 0)] := by
  have hsorted : byScore [(v, (1 : Float32)), (w, 0)] = [(v, 1), (w, 0)] :=
    byScore_eq_self (by simp; decide +kernel)
  simp only [nearest, List.map_cons, List.map_nil, cosine_one_one, cosine_one_zero, Option.all_none,
    List.filter_true, hsorted]
  rfl

variable {edits : List Edit} {u w : String}

theorem leads_loneStore (hemb : (after { id := "m" } edits).embeddings = [(u, [1]), (w, [0])])
    (hu : (after { id := "m" } edits).nodes.get? u = some "a")
    (hw : (after { id := "m" } edits).nodes.get? w = some "a") :
    (after { id := "m" } edits).Leads loneStore := by
  intro x hx
  rw [hemb] at hx
  rcases List.mem_cons.mp hx with rfl | hx
  · exact ⟨"a", lone, hu, rfl⟩
  · cases List.mem_singleton.mp hx
    exact ⟨"a", lone, hw, rfl⟩

theorem numbers_alongOne (hemb : (after { id := "m" } edits).embeddings = [(u, [1]), (w, [0])]) :
    ∀ v, ((alongOne.embed spare).run ()).1 = .ok v →
      ∀ x ∈ (after { id := "m" } edits).embeddings, (cosine v x.2).isNaN = false := by
  intro v hv x hx
  cases hv
  rw [hemb] at hx
  rcases List.mem_cons.mp hx with rfl | hx
  · rw [cosine_one_one]
    decide
  · cases List.mem_singleton.mp hx
    rw [cosine_one_zero]
    decide

/-- Two vectors of one node with different scores are not both recorded. -/
theorem not_recordsEach (hemb : (after { id := "m" } edits).embeddings = [(u, [1]), (w, [0])])
    (hu : (after { id := "m" } edits).nodes.get? u = some "a")
    (hw : (after { id := "m" } edits).nodes.get? w = some "a")
    (hfull : (after { id := "m" } edits).isEmpty = false)
    (hbackend : (after { id := "m" } edits).backend.inProcess = true)
    (hstored : ∀ id ∈ (after { id := "m" } edits).nodeIds, loneStore.contains id = true) :
    ¬ RecordsEach edits := by
  have hsearch : ((after { id := "m" } edits).search loneStore none 2 none [1]).run () =
      (.ok [(u, 1), (w, 0)], ()) := by
    simp only [search, hbackend, if_true, passing, hemb]
    exact congrArg (fun found => (Except.ok found, ())) (nearest_alongOne u w)
  have hgather : ((after { id := "m" } edits).gather loneStore [(u, 1), (w, 0)] {}).run () =
      (.ok (.ofScored [(lone, 1), (lone, 0)]), ()) := by
    simp only [gather, nodeOf, List.foldlM_cons, hu, hw]
    rfl
  intro h
  have hrun := (retrieve_run (e := spare) (q := alongOne) hfull rfl hsearch).trans hgather
  obtain ⟨htracks, _⟩ := h loneStore spare alongOne 2 none _ keyed_loneStore
    (leads_loneStore hemb hu hw) hstored (numbers_alongOne hemb) hrun
  have hrecorded : some (0 : Float32) = some 1 := htracks ⟨lone, some 1⟩ List.mem_cons_self
  exact absurd hrecorded (by decide)

/-- A second vector id for a node leaves the lower score in the record, and so does a move onto a vector
id that has an embedding. -/
theorem not_every_history_recordsEach : ¬ RecordsEach registeredTwice ∧ ¬ RecordsEach movedOnto :=
  ⟨not_recordsEach rfl rfl rfl rfl rfl (by decide), not_recordsEach rfl rfl rfl rfl rfl (by decide)⟩

theorem neverDoubles_movedAway : NeverDoubles { id := "m" } movedAway := by
  refine ⟨?_, not_false, ?_, ?_, not_false, trivial⟩
  · intro ⟨v, _, hv⟩
    cases hv
  · intro ⟨_, _, hnew⟩
    exact absurd hnew (by decide)
  · intro ⟨v, hne, hv⟩
    have hmem : (v, "a") ∈ [("v", "a")] := SortedMap.get?_eq_some_iff.mp hv
    cases List.mem_singleton.mp hmem
    exact hne rfl

/-- The node with two vectors is found twice and cut by its lower score; the one that keeps a single vector
is recorded as it scored. -/
theorem cutoff_reads_lowest_score_twice :
    (∃ r s', ((after { id := "m" } registeredTwice).retrieve loneStore spare none 2 none alongOne).run () =
      (.ok r, s') ∧ (r.Tracks ↔ r.Agrees) ∧
        ∀ cutoff, r.cut cutoff = .ok (r.hits.filter fun h => r.nodeReaches cutoff h.node.id)) ∧
    ∃ r s', ((after { id := "m" } movedAway).retrieve loneStore spare none 2 none alongOne).run () =
      (.ok r, s') ∧ r.Tracks ∧ ∀ cutoff, r.cut cutoff = .ok (r.hits.filter (·.reaches cutoff)) := by
  constructor
  · obtain ⟨hruns, htracks, hlowest, _⟩ := @cutoff_reads_lowest_score Unit loneStore spare none 2
      none alongOne (after { id := "m" } registeredTwice) keyed_loneStore ()
    have hnum := @numbers_alongOne registeredTwice "v" "w" rfl
    obtain ⟨r, s', hr⟩ := hruns (leads_loneStore rfl rfl rfl) rfl ⟨[1], (), rfl⟩ hnum
    exact ⟨r, s', hr, (htracks r s' hr).1, hlowest r s' hr hnum⟩
  · obtain ⟨hruns, htracks, _, hsingle⟩ := @cutoff_reads_lowest_score Unit loneStore spare none 2
      none alongOne (after { id := "m" } movedAway) keyed_loneStore ()
    have hleads : (after { id := "m" } movedAway).Leads loneStore := by
      intro x hx
      cases List.mem_singleton.mp hx
      exact ⟨"a", lone, rfl, rfl⟩
    have hnum : ∀ v, ((alongOne.embed spare).run ()).1 = .ok v →
        ∀ x ∈ (after { id := "m" } movedAway).embeddings, (cosine v x.2).isNaN = false := by
      intro v hv x hx
      cases hv
      cases List.mem_singleton.mp hx
      rw [cosine_one_one]
      decide
    obtain ⟨r, s', hr⟩ := hruns hleads rfl ⟨[1], (), rfl⟩ hnum
    have hrecords : r.Tracks := by
      refine hsingle "m" none .simple movedAway rfl neverDoubles_movedAway ?_ r s' hr
      intro g hg
      cases hg
    exact ⟨r, s', hr, hrecords, (htracks r s' hr).2 hrecords⟩

end VectorMap
end CorpusIndex
