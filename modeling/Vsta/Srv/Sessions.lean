import Vsta.Hash
import Mathlib.Data.List.Count
import Mathlib.Tactic.SplitIfs

/-!
# Clients that have objects open

The servers under `srv` keep two tables: the clients, each with at most one object open, and the
objects, each with a queue of clients that wait. `Sessions` says that the tables agree: what is open
exists, and on the queue of an object are, each once, the clients that have it open and are marked
as waiting. Below are the operations the servers are made of, one lemma each, and what they do to
the number of clients an object has (`holders`).
-/

set_option autoImplicit false

namespace Vsta.Srv

section
variable {F O : Type} (file : F → Option ULong) (entry : F → Bool) (queue : O → List ULong)

/-- The tables agree. -/
structure Sessions (objects : Hash O) (clients : Hash F) : Prop where
  clientKeys : clients.Distinct
  objectKeys : objects.Distinct
  opened : ∀ h f i, clients.lookup h = some f → file f = some i → ∃ o, objects.lookup i = some o
  sits : ∀ h f, clients.lookup h = some f → entry f = true → ∃ i, file f = some i
  queued : ∀ i o h, objects.lookup i = some o →
    (h ∈ queue o ↔ ∃ f, clients.lookup h = some f ∧ file f = some i ∧ entry f = true)
  nodup : ∀ i o, objects.lookup i = some o → (queue o).Nodup

/-- The number of clients of a kind that have an object open. -/
def holders (kind : F → Bool) (clients : Hash F) (i : ULong) : ℕ :=
  clients.countP fun node => kind node.2 && decide (file node.2 = some i)

variable {file entry queue} {objects : Hash O} {clients : Hash F} {h i : ULong} {f : F} {o : O}

/-! ## How many have it open -/

theorem holders_insert (kind : F → Bool) :
    holders file kind (clients.insert h f) i =
      holders file kind clients i + if kind f = true ∧ file f = some i then 1 else 0 := by
  simp [holders, Hash.insert, List.countP_cons]

theorem holders_delete (kind : F → Bool) (found : clients.lookup h = some f) :
    holders file kind clients i =
      holders file kind (clients.delete h) i +
        if kind f = true ∧ file f = some i then 1 else 0 := by
  rw [holders, (Hash.perm_delete found).countP_eq, List.countP_cons, holders]
  simp

theorem holders_mapVals {kind : F → Bool} {change : ULong → F → F}
    (same : ∀ k f, file (change k f) = file f) (kinds : ∀ k f, kind (change k f) = kind f) :
    holders file kind (clients.mapVals change) i = holders file kind clients i := by
  rw [holders, Hash.mapVals, List.countP_map, holders]
  refine List.countP_congr fun node _ => ?_
  simp [same, kinds]

/-- A client that changes. -/
theorem holders_modify (distinct : clients.Distinct) (kind : F → Bool)
    (found : clients.lookup h = some f) (change : F → F) :
    holders file kind (clients.modify h change) i +
        (if kind f = true ∧ file f = some i then 1 else 0) =
      holders file kind clients i +
        if kind (change f) = true ∧ file (change f) = some i then 1 else 0 := by
  have found' : (clients.modify h change).lookup h = some (change f) := by
    rw [Hash.lookup_modify, if_pos rfl, found]
    rfl
  rw [holders_delete kind found', distinct.delete_modify, holders_delete kind found]
  omega

/-- A client that had nothing open opens an object. -/
theorem holders_move (distinct : clients.Distinct) {kind : F → Bool}
    (found : clients.lookup h = some f) (root : file f = none) {change : F → F} {j : ULong}
    (opens : file (change f) = some j) :
    holders file kind (clients.modify h change) i =
      holders file kind clients i + if kind (change f) = true ∧ j = i then 1 else 0 := by
  have moved := @holders_modify _ file clients h i f distinct kind found change
  simpa [root, opens] using moved

theorem holders_pos (kind : F → Bool) (found : clients.lookup h = some f) (yes : kind f = true)
    (opens : file f = some i) : 0 < holders file kind clients i := by
  rw [holders, List.countP_pos_iff]
  exact ⟨(h, f), (Hash.perm_delete found).mem_iff.mpr List.mem_cons_self, by simp [yes, opens]⟩

theorem holders_eq_zero (distinct : clients.Distinct) (kind : F → Bool)
    (nobody : ∀ h f, clients.lookup h = some f → file f ≠ some i) :
    holders file kind clients i = 0 := by
  rw [holders, List.countP_eq_zero]
  rintro ⟨h, f⟩ member
  simp [nobody h f (distinct.lookup_of_mem member)]

/-- Those of a kind, and the others. -/
theorem holders_add (kind : F → Bool) :
    holders file kind clients i + holders file (fun f => !kind f) clients i =
      holders file (fun _ => true) clients i := by
  induction clients with
  | nil => rfl
  | cons node rest ih =>
      simp only [holders, List.countP_cons, Bool.true_and] at ih ⊢
      cases kind node.2 <;> simp <;> omega

/-! ## The operations -/

theorem sessions_nil : Sessions file entry queue [] [] := by
  constructor <;> simp [Hash.Distinct, Hash.lookup]

/-- One object changes, and its queue does not. -/
theorem Sessions.object (sessions : Sessions file entry queue objects clients)
    (there : objects.lookup i = some o) (change : O → O) (same : queue (change o) = queue o) :
    Sessions file entry queue (objects.modify i change) clients := by
  have back : ∀ j o', (objects.modify i change).lookup j = some o' →
      ∃ o, objects.lookup j = some o ∧ queue o' = queue o := by
    intro j o' found
    rw [Hash.lookup_modify] at found
    split_ifs at found with here
    · obtain rfl : change o = o' := by simpa [there] using found
      exact ⟨o, here ▸ there, same⟩
    · exact ⟨o', found, rfl⟩
  refine ⟨sessions.clientKeys, sessions.objectKeys.modify i change, fun h f j client opens => ?_,
    sessions.sits, fun j o' h found => ?_, fun j o' found => ?_⟩
  · obtain ⟨o', there'⟩ := sessions.opened h f j client opens
    rw [Hash.lookup_modify]
    split_ifs with here
    · exact ⟨change o, by rw [there]; rfl⟩
    · exact ⟨o', there'⟩
  · obtain ⟨o, there', kept⟩ := back j o' found
    rw [kept]
    exact sessions.queued j o h there'
  · obtain ⟨o, there', kept⟩ := back j o' found
    rw [kept]
    exact sessions.nodup j o there'

/-- The queue of an object changes, and the clients that have it open are marked accordingly. -/
theorem Sessions.requeue (sessions : Sessions file entry queue objects clients)
    (there : objects.lookup i = some o) (change : O → O) (mark : ULong → F → F)
    (same : ∀ k f, file (mark k f) = file f)
    (marks : ∀ k f, clients.lookup k = some f → entry (mark k f) =
      if file f = some i then decide (k ∈ queue (change o)) else entry f)
    (members : ∀ k ∈ queue (change o), ∃ f, clients.lookup k = some f ∧ file f = some i)
    (nodup : (queue (change o)).Nodup) :
    Sessions file entry queue (objects.modify i change) (clients.mapVals mark) := by
  have look : ∀ j o', (objects.modify i change).lookup j = some o' →
      (j = i ∧ o' = change o) ∨ (j ≠ i ∧ objects.lookup j = some o') := by
    intro j o' found
    rw [Hash.lookup_modify, there] at found
    split_ifs at found with here
    · exact .inl ⟨here, (Option.some.inj found).symm⟩
    · exact .inr ⟨here, found⟩
  have hash : ∀ k f', (clients.mapVals mark).lookup k = some f' ↔
      ∃ f, clients.lookup k = some f ∧ mark k f = f' := by
    intro k f'
    rw [Hash.lookup_mapVals, Option.map_eq_some_iff]
  refine ⟨sessions.clientKeys.mapVals mark, sessions.objectKeys.modify i change,
    fun h f' j marked opens => ?_, fun h f' marked on => ?_, fun j o' h found => ?_,
    fun j o' found => ?_⟩
  · obtain ⟨f, client, rfl⟩ := (hash h f').mp marked
    obtain ⟨o', there'⟩ := sessions.opened h f j client (same h f ▸ opens)
    rw [Hash.lookup_modify]
    split_ifs
    · exact ⟨change o, by rw [there]; rfl⟩
    · exact ⟨o', there'⟩
  · obtain ⟨f, client, rfl⟩ := (hash h f').mp marked
    rw [same]
    rw [marks h f client] at on
    split_ifs at on with here
    · exact ⟨i, here⟩
    · exact sessions.sits h f client on
  · rcases look j o' found with ⟨rfl, rfl⟩ | ⟨other, there'⟩
    · constructor
      · intro queued
        obtain ⟨f, client, opens⟩ := members h queued
        refine ⟨mark h f, (hash h _).mpr ⟨f, client, rfl⟩, (same h f).trans opens, ?_⟩
        rw [marks h f client, if_pos opens, decide_eq_true queued]
      · rintro ⟨f', marked, opens, on⟩
        obtain ⟨f, client, rfl⟩ := (hash h f').mp marked
        rw [same] at opens
        rw [marks h f client, if_pos opens] at on
        exact of_decide_eq_true on
    · rw [sessions.queued j o' h there']
      constructor
      · rintro ⟨f, client, opens, on⟩
        refine ⟨mark h f, (hash h _).mpr ⟨f, client, rfl⟩, (same h f).trans opens, ?_⟩
        rwa [marks h f client, if_neg fun here => other (Option.some.inj (opens.symm.trans here))]
      · rintro ⟨f', marked, opens, on⟩
        obtain ⟨f, client, rfl⟩ := (hash h f').mp marked
        rw [same] at opens
        rw [marks h f client,
          if_neg fun here => other (Option.some.inj (opens.symm.trans here))] at on
        exact ⟨f, client, opens, on⟩
  · rcases look j o' found with ⟨rfl, rfl⟩ | ⟨-, there'⟩
    · exact nodup
    · exact sessions.nodup j o' there'

/-- A client that waits for nothing comes. -/
theorem Sessions.enter (sessions : Sessions file entry queue objects clients)
    (fresh : clients.lookup h = none) (off : entry f = false)
    (opened : ∀ i, file f = some i → ∃ o, objects.lookup i = some o) :
    Sessions file entry queue objects (clients.insert h f) := by
  have hash : ∀ h', (clients.insert h f).lookup h' =
      if h' = h then some f else clients.lookup h' := Hash.lookup_insert _ _ _
  refine ⟨sessions.clientKeys.insert fresh, sessions.objectKeys, fun h' f' j client opens => ?_,
    fun h' f' client on => ?_, fun j o h' there => ?_, sessions.nodup⟩
  · rw [hash] at client
    split_ifs at client
    · obtain rfl := Option.some.inj client
      exact opened j opens
    · exact sessions.opened h' f' j client opens
  · rw [hash] at client
    split_ifs at client
    · rw [← Option.some.inj client, off] at on
      cases on
    · exact sessions.sits h' f' client on
  · rw [sessions.queued j o h' there, hash]
    split_ifs with here
    · simp [here, fresh, off]
    · rfl

/-- A client that waits for nothing goes. -/
theorem Sessions.depart (sessions : Sessions file entry queue objects clients)
    (client : clients.lookup h = some f) (off : entry f = false) :
    Sessions file entry queue objects (clients.delete h) := by
  have hash : ∀ h', (clients.delete h).lookup h' =
      if h' = h then none else clients.lookup h' := sessions.clientKeys.lookup_delete _
  refine ⟨sessions.clientKeys.delete h, sessions.objectKeys, fun h' f' j client' opens => ?_,
    fun h' f' client' on => ?_, fun j o h' there => ?_, sessions.nodup⟩
  · rw [hash] at client'
    split_ifs at client'
    exact sessions.opened h' f' j client' opens
  · rw [hash] at client'
    split_ifs at client'
    exact sessions.sits h' f' client' on
  · rw [sessions.queued j o h' there, hash]
    split_ifs with here
    · simp [here, client, off]
    · rfl

/-- A client goes, and with it its place on the queue of the object it has open. -/
theorem Sessions.leave (sessions : Sessions file entry queue objects clients)
    (client : clients.lookup h = some f) (opens : file f = some i) (there : objects.lookup i = some o)
    {o' : O} (members : ∀ k, k ∈ queue o' ↔ k ∈ queue o ∧ k ≠ h) (nodup : (queue o').Nodup) :
    Sessions file entry queue (objects.modify i fun _ => o') (clients.delete h) := by
  have hash : ∀ h', (clients.delete h).lookup h' =
      if h' = h then none else clients.lookup h' := sessions.clientKeys.lookup_delete _
  have look : ∀ j, (objects.modify i fun _ => o').lookup j =
      if j = i then some o' else objects.lookup j := by
    intro j
    rw [Hash.lookup_modify, there]
    rfl
  refine ⟨sessions.clientKeys.delete h, sessions.objectKeys.modify i _, fun h' f' j client' opens' => ?_,
    fun h' f' client' on => ?_, fun j o'' h' found => ?_, fun j o'' found => ?_⟩
  · rw [hash] at client'
    rw [look]
    split_ifs at client' ⊢
    · exact ⟨o', rfl⟩
    · exact sessions.opened h' f' j client' opens'
  · rw [hash] at client'
    split_ifs at client'
    exact sessions.sits h' f' client' on
  · rw [look] at found
    rw [hash]
    split_ifs at found with here
    · obtain rfl := Option.some.inj found
      rw [members, here, sessions.queued i o h' there]
      split_ifs with same
      · simp [same]
      · simp [same]
    · rw [sessions.queued j o'' h' found]
      split_ifs with same
      · subst same
        refine ⟨?_, by rintro ⟨f', none_, -⟩; cases none_⟩
        rintro ⟨f', client', opens', -⟩
        rw [client] at client'
        obtain rfl := Option.some.inj client'
        exact absurd (Option.some.inj (opens'.symm.trans opens)) here
      · rfl
  · rw [look] at found
    split_ifs at found
    · obtain rfl := Option.some.inj found
      exact nodup
    · exact sessions.nodup j o'' found

/-- An object that nobody has open goes. -/
theorem Sessions.remove (sessions : Sessions file entry queue objects clients)
    (nobody : ∀ h f, clients.lookup h = some f → file f ≠ some i) :
    Sessions file entry queue (objects.delete i) clients := by
  have look : ∀ j, (objects.delete i).lookup j = if j = i then none else objects.lookup j :=
    sessions.objectKeys.lookup_delete _
  refine ⟨sessions.clientKeys, sessions.objectKeys.delete i, fun h f j client opens => ?_,
    sessions.sits, fun j o h found => ?_, fun j o found => ?_⟩
  · rw [look, if_neg fun here : j = i => nobody h f client (here ▸ opens)]
    exact sessions.opened h f j client opens
  · rw [look] at found
    split_ifs at found
    exact sessions.queued j o h found
  · rw [look] at found
    split_ifs at found
    exact sessions.nodup j o found

/-- An object comes that nobody waits for. -/
theorem Sessions.create (sessions : Sessions file entry queue objects clients)
    (fresh : objects.lookup i = none) (empty : queue o = []) :
    Sessions file entry queue (objects.insert i o) clients := by
  have look : ∀ j, (objects.insert i o).lookup j =
      if j = i then some o else objects.lookup j := Hash.lookup_insert _ _ _
  refine ⟨sessions.clientKeys, sessions.objectKeys.insert fresh, fun h f j client opens => ?_,
    sessions.sits, fun j o' h found => ?_, fun j o' found => ?_⟩
  · rw [look]
    split_ifs
    · exact ⟨o, rfl⟩
    · exact sessions.opened h f j client opens
  · rw [look] at found
    split_ifs at found with here
    · obtain rfl := Option.some.inj found
      rw [empty]
      simp only [List.not_mem_nil, false_iff, not_exists, not_and]
      intro f client opens
      obtain ⟨o', there⟩ := sessions.opened h f j client opens
      rw [here, fresh] at there
      cases there
    · exact sessions.queued j o' h found
  · rw [look] at found
    split_ifs at found
    · obtain rfl := Option.some.inj found
      rw [empty]
      exact List.nodup_nil
    · exact sessions.nodup j o' found

/-- A client that had nothing open opens an object. -/
theorem Sessions.move (sessions : Sessions file entry queue objects clients)
    (client : clients.lookup h = some f) (root : file f = none)
    (there : objects.lookup i = some o) (change : F → F) (opens : file (change f) = some i)
    (off : entry (change f) = false) :
    Sessions file entry queue objects (clients.modify h change) := by
  have hash : ∀ h', (clients.modify h change).lookup h' =
      if h' = h then some (change f) else clients.lookup h' := by
    intro h'
    rw [Hash.lookup_modify, client]
    rfl
  have idle : entry f = false := by
    by_contra on
    obtain ⟨j, opens'⟩ := sessions.sits h f client (by simpa using on)
    rw [root] at opens'
    cases opens'
  refine ⟨sessions.clientKeys.modify h change, sessions.objectKeys, fun h' f' j client' opens' => ?_,
    fun h' f' client' on => ?_, fun j o' h' found => ?_, sessions.nodup⟩
  · rw [hash] at client'
    split_ifs at client'
    · obtain rfl := Option.some.inj client'
      obtain rfl := Option.some.inj (opens.symm.trans opens')
      exact ⟨o, there⟩
    · exact sessions.opened h' f' j client' opens'
  · rw [hash] at client'
    split_ifs at client'
    · rw [← Option.some.inj client', off] at on
      cases on
    · exact sessions.sits h' f' client' on
  · rw [sessions.queued j o' h' found, hash]
    split_ifs with here
    · simp [here, client, idle, off]
    · rfl

end

end Vsta.Srv
