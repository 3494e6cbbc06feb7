import Vsta.Env.Clients

/-!
# What each request of the environment server does

Every request that meets `Fits` goes through, keeps what holds between requests, and makes of the
directories what `after` says.
-/

set_option autoImplicit false

namespace Vsta.Env

open Vstafs

variable {s t u : State} {hand vals : List ULong} {a b p : ULong} {n : Node} {h k : Handle}
  {f g : File} {o : Option ULong} {leaves : ULong → Option Leaf}

/-! ## Requests -/

/-- The pieces of what is shown of a request whose nodes were there before. -/
theorem Intact.goes {x : Outcome} {act : Action} {reply : Reply} (intact : Intact s)
    (run : s.exec x act = .ok (t, reply)) (tree : Tree t []) (all : Vals t [])
    (grows : Grows none s t) (entries : leaf t = leaves) (placed : Placed t) :
    Shown s (x, act) leaves :=
  ⟨t, reply, run, ⟨tree, all, grows.live tree intact.live nofun, placed⟩, entries⟩

/-- A request that gives back what it took. -/
theorem Intact.back {x : Outcome} {act : Action} {reply : Reply} (intact : Intact s)
    (run : s.exec x act = .ok (t, reply)) (tree : Tree t []) (all : Vals t [])
    (frame : Frame s t) : Shown s (x, act) (leaf s) := by
  refine intact.goes run tree all frame.grows frame.leaf
    ⟨fun k g client => ?_, ?_, ?_, fun k g client => ?_⟩
  · rw [frame.files] at client
    refine (intact.placed.stands k g client).grows (o := none) frame.grows fun a member => ?_
    exact tree.placed k g a (frame.files ▸ client) member
  · rw [frame.files]
    exact intact.placed.share
  · rw [frame.files]
    exact intact.placed.inner
  · rw [frame.files] at client
    exact (intact.placed.fresh k g client).trans_eq frame.groups.symm

/-- A request that changes nothing. -/
theorem Intact.still {x : Outcome} {act : Action} {r : Reply} (intact : Intact s)
    (run : s.exec x act = .ok (s, r)) (same : leaves = leaf s) : Shown s (x, act) leaves :=
  ⟨s, r, run, intact, same.symm⟩

theorem goes_connect (intact : Intact s) (x : Outcome) (mArg : ULong)
    (fresh : s.filehash.lookup h = none) : Shown s (x, .connect h mArg) (leaf s) := by
  by_cases memory : x.client = true
  swap
  · exact intact.still (r := .err .strerror) (by
      simp only [State.exec, State.newClient, memory, Bool.not_false, if_true]) rfl
  by_cases open_ : canAccess x.perm mArg = true
  swap
  · exact intact.still (r := .err .EPERM) (by
      simp only [State.exec, State.newClient, memory, open_, Bool.not_true, Bool.not_false,
        Bool.false_eq_true, if_true, if_false]) rfl
  by_cases slot : x.slot = true
  swap
  · exact intact.still (r := .err .ENOMEM) (by
      simp only [State.exec, State.newClient, memory, open_, slot, Bool.not_true, Bool.not_false,
        Bool.false_eq_true, if_true, if_false]) rfl
  obtain ⟨r, top, -⟩ := intact.tree.root
  obtain ⟨u, counted, tree, all, frame⟩ := refNode_spec intact.tree intact.vals (some rootnode)
    fun a is => by
      obtain rfl := Option.some.inj is
      rw [top]
      exact Option.some_ne_none r
  have absent : u.filehash.lookup h = none := by rw [frame.files, fresh]
  have look : ∀ k, (u.filehash.insert h ⟨some rootnode, none, 0, x.perm, u.groups⟩).lookup k =
      if k = h then some ⟨some rootnode, none, 0, x.perm, u.groups⟩
      else s.filehash.lookup k := fun k => by rw [Hash.lookup_insert, frame.files]
  have run : s.exec x (.connect h mArg) = .ok ({ u with
      filehash := u.filehash.insert h ⟨some rootnode, none, 0, x.perm, u.groups⟩
      groups := u.groups + 1 }, .ok) := by
    simp only [State.exec, State.newClient, memory, open_, slot, counted, bind, Except.bind,
      Bool.not_true, Bool.false_eq_true, if_false]
  have tree' : Tree { u with
      filehash := u.filehash.insert h ⟨some rootnode, none, 0, x.perm, u.groups⟩
      groups := u.groups + 1 } [] := by
    refine tree.client rfl rfl rfl (tree.clientKeys.insert absent) fun b => ?_
    rw [Srv.pointers_insert]
    simp only [File.ptrs, Option.toList_some, Option.toList_none, List.append_nil,
      List.count_nil]
    omega
  have grows : Grows none s { u with
      filehash := u.filehash.insert h ⟨some rootnode, none, 0, x.perm, u.groups⟩
      groups := u.groups + 1 } := frame.grows
  refine intact.goes run tree' (all.congr tree.nodeKeys rfl rfl rfl fun _ => rfl) grows
    frame.leaf ?_
  refine intact.placed.next (h := h) grows tree' (frame.groups ▸ Nat.le_succ _)
    (fun k g client apart => ?_) fun g client => ?_
  · rw [look, if_neg apart] at client
    exact client
  · rw [look, if_pos rfl] at client
    obtain rfl := Option.some.inj client
    obtain ⟨r, top, -⟩ := tree.root
    refine ⟨⟨rootnode, r, rfl, top, .inr (.inl rfl)⟩, nofun, Nat.lt_succ_self _,
      fun k g client _ same => ?_⟩
    have old := intact.placed.fresh k g client
    rw [← same, frame.groups] at old
    exact absurd old (Nat.lt_irrefl _)

theorem goes_dup (intact : Intact s) (x : Outcome) {mArg : Handle}
    (known : s.filehash.lookup h ≠ none) (fresh : s.filehash.lookup mArg = none) :
    Shown s (x, .dup h mArg) (leaf s) := by
  obtain ⟨f, client⟩ := Option.ne_none_iff_exists'.mp known
  by_cases memory : x.client = true
  swap
  · exact intact.still (r := .err .strerror) (by
      simp only [State.exec, State.dupClient, State.file, client, memory, bind, Except.bind,
        Bool.not_false, if_true]) rfl
  have there : ∀ a, a ∈ f.ptrs → s.nodes.lookup a ≠ none := fun a =>
    intact.tree.placed h f a client
  obtain ⟨u, counted, tree₁, all₁, frame₁⟩ := refNode_spec intact.tree intact.vals f.fNode
    fun a is => there a (List.mem_append_left _ (Option.mem_toList.mpr is))
  obtain ⟨w, counted', tree₂, all₂, frame₂⟩ := refNode_spec tree₁ all₁ f.fHome fun a is => by
    refine tree₁.placed h f a (frame₁.files ▸ client) ?_
    exact List.mem_append_right _ (Option.mem_toList.mpr is)
  have frame := frame₁.trans frame₂
  by_cases slot : x.slot = true
  · have absent : w.filehash.lookup mArg = none := by rw [frame.files, fresh]
    have look : ∀ k, (w.filehash.insert mArg f).lookup k =
        if k = mArg then some f else s.filehash.lookup k := fun k => by
      rw [Hash.lookup_insert, frame.files]
    have run : s.exec x (.dup h mArg) =
        .ok ({ w with filehash := w.filehash.insert mArg f }, .ok) := by
      simp only [State.exec, State.dupClient, State.file, client, memory, counted, counted', slot,
        bind, Except.bind, Bool.not_true, Bool.false_eq_true, if_false]
    have tree : Tree { w with filehash := w.filehash.insert mArg f } [] := by
      refine tree₂.client rfl rfl rfl (tree₂.clientKeys.insert absent) fun b => ?_
      rw [Srv.pointers_insert, File.ptrs]
      simp only [List.count_append, List.count_nil]
      omega
    have grows : Grows none s { w with filehash := w.filehash.insert mArg f } := frame.grows
    refine intact.goes run tree (all₂.congr tree₂.nodeKeys rfl rfl rfl fun _ => rfl) grows
      frame.leaf ?_
    refine intact.placed.next (h := mArg) grows tree frame.groups.ge
      (fun k g client apart => ?_) fun g client' => ?_
    · rw [look, if_neg apart] at client
      exact client
    · rw [look, if_pos rfl] at client'
      obtain rfl := Option.some.inj client'
      refine ⟨(intact.placed.stands h f client).grows grows fun a member =>
        tree.placed mArg f a (by rw [look, if_pos rfl]) member, intact.placed.inner h f client, ?_,
        fun k g client' _ same => ?_⟩
      · exact (intact.placed.fresh h f client).trans_eq frame.groups.symm
      · exact intact.placed.share h f k g client client' same
  · obtain ⟨u', back, tree₃, all₃, frame₃⟩ := derefNode_spec f.fHome tree₂ all₂
    obtain ⟨w', back', tree, all, frame₄⟩ := derefNode_spec f.fNode tree₃ all₃
    have frame := frame.trans (frame₃.trans frame₄)
    have run : s.exec x (.dup h mArg) = .ok (w', .err .ENOMEM) := by
      simp only [State.exec, State.dupClient, State.file, client, memory, counted, counted', slot,
        back, back', bind, Except.bind, Bool.not_true, Bool.not_false, Bool.false_eq_true, if_true,
        if_false]
    exact intact.back run tree all frame

/-- A client that goes gives up its pointers. -/
theorem Tree.leave (tree : Tree s hand) (client : s.filehash.lookup h = some f) :
    Tree { s with filehash := s.filehash.delete h } (f.fNode.toList ++ (f.fHome.toList ++ hand)) := by
  refine tree.client rfl rfl rfl (tree.clientKeys.delete h) fun b => ?_
  rw [Srv.pointers_delete client, ← List.append_assoc, List.count_append, File.ptrs]
  show Srv.pointers File.ptrs (s.filehash.delete h) b + _ = _
  omega

theorem goes_disconnect (intact : Intact s) (x : Outcome) (known : s.filehash.lookup h ≠ none)
    (fits : Fits s (x, .disconnect h)) : Shown s (x, .disconnect h) (leaf s) := by
  obtain ⟨f, client⟩ := Option.ne_none_iff_exists'.mp known
  obtain ⟨u, left, tree₁, all₁, frame₁⟩ := derefNode_spec f.fNode (intact.tree.leave client)
    (intact.vals.congr intact.tree.nodeKeys rfl rfl rfl fun _ => rfl)
  obtain ⟨t, left', tree, all, frame₂⟩ := derefNode_spec f.fHome tree₁ all₁
  have frame := frame₁.trans frame₂
  have files : u.filehash = s.filehash.delete h := frame₁.files
  have look := intact.tree.clientKeys.lookup_delete h
  have run : s.exec x (.disconnect h) = .ok (t, .ok) := by
    have last : (if (u.members f.group).isEmpty then u.removeNode f.fHome
        else u.derefNode f.fHome) = .ok t := by
      by_cases empty : (u.members f.group).isEmpty = true
      · rw [if_pos empty]
        cases home : f.fHome with
        | none =>
            rw [home] at left'
            exact left'
        | some a =>
            -- the home is not torn down: there is another member
            obtain ⟨k, g, apart, client', same⟩ := fits f client (by rw [home]; nofun)
            have member : k ∈ u.members f.group := by
              refine List.mem_map.mpr ⟨(k, g), List.mem_filter.mpr ⟨?_, decide_eq_true same⟩, rfl⟩
              rw [files]
              refine (Hash.perm_delete ?_).mem_iff.mpr List.mem_cons_self
              rw [look, if_neg apart, client']
            rw [List.isEmpty_iff.mp empty] at member
            cases member
      · rw [if_neg empty]
        exact left'
    simp only [State.exec, State.deadClient, State.file, client, bind, Except.bind, left]
    split_ifs at last ⊢ <;> rw [last]
  have gone : ∀ k, t.filehash.lookup k = if k = h then none else s.filehash.lookup k := fun k => by
    rw [frame.files]
    exact look k
  have grows : Grows none s t := frame.grows
  refine intact.goes run tree all grows frame.leaf ?_
  refine intact.placed.next (h := h) grows tree frame.groups.ge (fun k g client apart => ?_)
    fun g client => ?_
  · rw [gone, if_neg apart] at client
    exact client
  · rw [gone, if_pos rfl] at client
    cases client

/-- The pointers to the directory of a client that has something in it. -/
theorem three_refs (intact : Intact s) (client : s.filehash.lookup h = some f)
    (at_ : f.fNode = some a) (there : s.nodes.lookup a = some n) {m : Node}
    (child : s.nodes.lookup b = some m) (up : m.nUp = some a) : 2 < n.nRefs := by
  have count := intact.tree.refs a n there
  have under := Srv.pointers_pos (p := Node.up) child (Option.mem_toList.mpr up)
  have own : (f.fNode.toList).count a = 1 := by
    rw [at_, Option.toList_some, List.count_singleton_self]
  have points := Srv.pointers_delete (p := File.ptrs) (a := a) client
  rw [File.ptrs, List.count_append, own] at points
  obtain ⟨a', n', at', there', spot⟩ := intact.placed.stands h f client
  obtain rfl : a = a' := Option.some.inj (at_.symm.trans at')
  obtain rfl : n = n' := Option.some.inj (there.symm.trans there')
  rw [named] at count
  rcases spot with list | rfl | home
  · rw [list, Bool.toNat_true] at count
    omega
  · rw [if_pos rfl] at count
    omega
  · rw [home, Option.toList_some, List.count_singleton_self] at points
    omega

/-- The directory a client is at. -/
theorem Intact.spot (intact : Intact s) (client : s.filehash.lookup h = some f) :
    ∃ a n, f.fNode = some a ∧ s.nodes.lookup a = some n := by
  obtain ⟨a, n, at_, there, -⟩ := intact.placed.stands h f client
  exact ⟨a, n, at_, there⟩

theorem lookup_spec (tree : Tree s hand) (there : s.nodes.lookup a = some n) (name : List UChar)
    (searchup : Bool) : ∃ r, s.lookup (some a) name searchup = .ok r ∧ ∀ b, r = some b →
      ∃ m, s.nodes.lookup b = some m ∧ m.nList = true ∧ (searchup = false → m.nUp = some a) :=
  lookupAlong_spec tree there ((tree.born a n there).trans (Nat.lt_succ_self _))

/-- A name is looked up in one directory. -/
theorem lookup_down (there : s.nodes.lookup a = some n) (name : List UChar) :
    s.lookup (some a) name false = .ok ((s.entry a name).map Prod.fst) := by
  simp only [State.lookup, State.lookupAlong, State.node, there, bind, Except.bind]
  cases found : s.entry a name with
  | none =>
      rw [State.entry] at found
      rw [found]
      rfl
  | some e =>
      rw [State.entry] at found
      rw [found]
      rfl

/-- An entry is a node in the list of the directory. -/
theorem entry_spec (tree : Tree s hand) {name : List UChar} {m : Node}
    (found : s.entry a name = some (b, m)) :
    s.nodes.lookup b = some m ∧ m.nList = true ∧ m.nUp = some a ∧ m.nName = name := by
  rw [State.entry] at found
  have named := List.find?_some found
  have member := List.mem_of_find?_eq_some found
  rw [State.elems, List.mem_filter, List.mem_reverse, Bool.and_eq_true, decide_eq_true_eq] at member
  exact ⟨tree.nodeKeys.lookup_of_mem member.1, member.2.1, member.2.2, of_decide_eq_true named⟩

theorem goes_remove (intact : Intact s) (x : Outcome) (name : List UChar)
    (known : s.filehash.lookup h ≠ none) :
    Shown s (x, .remove h name) (after s x (.remove h name)) := by
  obtain ⟨f, client⟩ := Option.ne_none_iff_exists'.mp known
  obtain ⟨a, n, at_, there⟩ := intact.spot client
  have look := lookup_down there name
  have head : s.exec x (.remove h name) =
      if !n.nInternal then .ok (s, .err .EINVAL)
      else if !has f.fMode ACC_WRITE then .ok (s, .err .EPERM)
      else (s.entry a name).elim (.ok (s, .err .ESRCH)) fun e => (s.node e.1).bind fun n2 =>
        if 1 < n2.nRefs then .ok (s, .err .EBUSY)
        else if n2.nRefs = 1 ∧ 2 < n.nRefs then
          (s.derefNode (some e.1)).bind fun t => .ok (t, .ok)
        else .error .assfail := by
    simp only [State.exec, State.envRemove, State.file, client, State.deep, at_, State.node, there,
      bind, Except.bind, look]
    cases s.entry a name <;> rfl
  have made : touched s x (.remove h name) =
      if !n.nInternal || !has f.fMode ACC_WRITE then none
      else (s.entry a name).bind fun e => if 1 < e.2.nRefs then none else some (e.1, none) := by
    simp only [touched, client, at_, there, bind, Option.bind_some]
  have still : touched s x (.remove h name) = none → after s x (.remove h name) = leaf s :=
    fun nothing => congrArg (touch (leaf s)) nothing
  by_cases dir : (!n.nInternal) = true
  · rw [if_pos dir] at head
    rw [dir, Bool.true_or, if_pos rfl] at made
    exact intact.still head (still made)
  rw [if_neg dir] at head
  by_cases closed : (!has f.fMode ACC_WRITE) = true
  · rw [if_pos closed] at head
    rw [closed, Bool.or_true, if_pos rfl] at made
    exact intact.still head (still made)
  rw [if_neg closed] at head
  rw [if_neg (by simp only [dir, closed, Bool.or_self, Bool.false_eq_true, not_false_iff])] at made
  cases found : s.entry a name with
  | none =>
      rw [found] at head made
      exact intact.still head (still made)
  | some e =>
      obtain ⟨b, m⟩ := e
      obtain ⟨child, list, up, -⟩ := entry_spec intact.tree found
      rw [found, Option.bind_some] at made
      simp only [found, Option.elim_some, State.node, child, Except.bind] at head
      by_cases busy : 1 < m.nRefs
      · rw [if_pos busy] at head
        exact intact.still head (still (made.trans (if_pos busy)))
      rw [if_neg busy] at head made
      have count := intact.tree.refs b m child
      have live := intact.live b m child
      rw [list, Bool.toNat_true] at count
      have one : m.nRefs = 1 := by omega
      rw [if_pos ⟨one, three_refs intact client at_ there child up⟩] at head
      obtain ⟨u, last, tree₁, all₁, files, groups, -, gone, texts⟩ := derefAlong_last intact.tree
        intact.vals child one (by omega) [] rfl (fun _ _ => rfl) s.made.length
      rw [up, Option.toList_some, List.singleton_append] at tree₁
      have apart : a ≠ b := by
        rintro rfl
        obtain ⟨m', above, older⟩ := intact.tree.parent _ m a child up
        rw [child] at above
        obtain rfl := Option.some.inj above
        exact absurd older (Nat.lt_irrefl _)
      have above : u.nodes.lookup a = some n := by rw [gone, if_neg apart, there]
      have older : n.born < s.made.length := intact.tree.born a n there
      obtain ⟨t, done, tree, all, frame⟩ := derefAlong_spec tree₁ all₁ above older
      rw [up, done] at last
      have run : s.exec x (.remove h name) = .ok (t, .ok) := by
        rw [head]
        simp only [State.derefNode, last]
      have grows : Grows none s t := by
        have first : Grows none s u := fun c k found => by
          rw [gone] at found
          split_ifs at found
          exact .inl ⟨k, found, rfl, id⟩
        exact first.frame frame
      have entries : leaf t = after s x (.remove h name) := by
        rw [frame.leaf]
        refine Eq.trans ?_ (congrArg (touch (leaf s)) made).symm
        funext c
        rw [touch]
        by_cases here : c = b
        · rw [here, Function.update_self, leaf, gone, if_pos rfl, Option.bind_none]
        · rw [Function.update_of_ne here, leaf, leaf, gone, if_neg here]
          cases there' : s.nodes.lookup c with
          | none => rfl
          | some k =>
              rw [Option.bind_some, Option.bind_some, var_congr k k rfl rfl fun v is => ?_]
              exact texts c k v (by rw [gone, if_neg here, there']) is
      refine intact.goes run tree all grows entries ?_
      have files' : t.filehash = s.filehash := frame.files.trans files
      refine intact.placed.next (h := h) grows tree (frame.groups.trans groups).ge
        (fun k g client _ => files' ▸ client) fun g client' => ?_
      rw [files', client] at client'
      obtain rfl := Option.some.inj client'
      refine ⟨(intact.placed.stands h f client).grows grows fun c member =>
        tree.placed h f c (files' ▸ client) member, intact.placed.inner h f client, ?_,
        fun k g client' _ same => ?_⟩
      · exact (intact.placed.fresh h f client).trans_eq (frame.groups.trans groups).symm
      · exact intact.placed.share h f k g client client' same

/-! ## Opens -/

/-- A client at a node that stays, after nodes and its place changed. -/
theorem Intact.moved {x : Outcome} {act : Action} {reply : Reply} (intact : Intact s)
    (client : s.filehash.lookup h = some f) (run : s.exec x act = .ok (t, reply))
    (tree : Tree t []) (all : Vals t []) (grows : Grows o s t) (groups : s.groups ≤ t.groups)
    (look : ∀ k, t.filehash.lookup k = if k = h then some g else s.filehash.lookup k)
    (home : g.fHome = f.fHome) (group : g.group = f.group) (stands : Stands t g)
    (pointed : ∀ a, o = some a → a ∈ g.ptrs) (entries : leaf t = leaves) :
    Shown s (x, act) leaves := by
  refine ⟨t, reply, run, ⟨tree, all, grows.live tree intact.live fun a is => ?_, ?_⟩, entries⟩
  · exact Srv.pointers_pos (by rw [look, if_pos rfl]) (pointed a is)
  refine intact.placed.next (h := h) grows tree groups (fun k g' client' apart => ?_)
    fun g' client' => ?_
  · rw [look, if_neg apart] at client'
    exact client'
  · rw [look, if_pos rfl] at client'
    obtain rfl := Option.some.inj client'
    rw [home, group]
    exact ⟨stands, intact.placed.inner h f client, (intact.placed.fresh h f client).trans_le groups,
      fun k g' client' _ same => intact.placed.share h f k g' client client' same⟩

/-- A node changes, and is counted and placed as before. -/
theorem Tree.keep (tree : Tree s hand) (a : ULong) {change : Node → Node}
    (up : ∀ n, (change n).nUp = n.nUp) (born : ∀ n, (change n).born = n.born)
    (list : ∀ n, (change n).nList = n.nList) (refs : ∀ n, (change n).nRefs = n.nRefs) :
    Tree (s.setNode a change) hand := by
  refine tree.update _ (setNode_nodes _) (fun b n => ⟨edit_same Node.nUp up b n,
    edit_same Node.born born b n⟩) (edit_same Node.nList list _) rfl rfl rfl
    (fun b m _ => ?_) fun b member => tree.held b member
  rw [edit_same Node.nRefs refs, edit_same Node.nList list]

theorem Tree.setVal (tree : Tree s hand) (a : ULong) (v : Option ULong) :
    Tree (s.setNode a fun n => { n with nVal := v }) hand := by
  refine tree.keep a ?_ ?_ ?_ ?_
  all_goals exact fun _ => rfl

/-- The string a node had is in hand, and the one it gets is no longer. -/
theorem Vals.setVal {hand : List ULong} (tree : Tree s hand) (there : s.nodes.lookup a = some n)
    (v : Option ULong) (all : Vals s (v.toList ++ vals)) :
    Vals (s.setNode a fun n => { n with nVal := v }) (n.nVal.toList ++ vals) := by
  refine all.congr tree.nodeKeys rfl rfl rfl fun w => ?_
  have moved := Srv.pointers_modify (p := Node.val) (a := w) tree.nodeKeys there fun n =>
    { n with nVal := v }
  rw [List.count_append, List.count_append]
  show Srv.pointers Node.val (s.nodes.modify a fun n => { n with nVal := v }) w + _ = _
  have own : (Node.val { n with nVal := v }).count w = v.toList.count w := rfl
  have old : n.val.count w = n.nVal.toList.count w := rfl
  omega

/-- A file is emptied. -/
theorem truncate_spec (tree : Tree s hand) (all : Vals s vals) (there : s.nodes.lookup a = some n)
    (x : Outcome) (free : taken (((s.setNode a fun n => { n with nVal := none }).derefVal n.nVal).bind
      fun s => s.allocVal x) = false) :
    ∃ u t v, (s.setNode a fun n => { n with nVal := none }).derefVal n.nVal = .ok u ∧
      u.allocVal x = .ok (t, v) ∧ Tree (t.setNode a fun n => { n with nVal := v }) hand ∧
      Vals (t.setNode a fun n => { n with nVal := v }) vals ∧ t.filehash = s.filehash ∧
      t.groups = s.groups ∧
      t.nodes = (s.setNode a fun n => { n with nVal := none }).nodes ∧
      ∀ b m w, t.nodes.lookup b = some m → m.nVal = some w → text t w = text s w := by
  have all₁ := Vals.setVal tree there none all
  obtain ⟨u, left, all₂, same⟩ := derefVal_spec n.nVal all₁
  have tree₂ := same.tree (tree.setVal a none)
  rw [left] at free
  obtain ⟨t, v, made, all₃, same'⟩ := allocVal_spec all₂ tree₂.nodeKeys x free
  have tree₃ := same'.tree tree₂
  have nodes : t.nodes = (s.setNode a fun n => { n with nVal := none }).nodes :=
    same'.nodes.trans same.nodes
  have there' : t.nodes.lookup a = some { n with nVal := none } := by
    rw [nodes, lookup_setNode there, if_pos rfl]
  refine ⟨u, t, v, left, made, tree₃.setVal a v, Vals.setVal tree₃ there' v all₃,
    same'.files.trans same.files, same'.groups.trans same.groups, nodes, fun b m w found value => ?_⟩
  rw [same'.texts b m w (same'.nodes ▸ found) value]
  exact same.texts b m w (nodes ▸ found) value

/-- What is in the memory of a new string. -/
theorem allocVal_text {x : Outcome} {v : Option ULong} (made : s.allocVal x = .ok (t, v)) :
    v.bind (text t) = x.text := by
  rw [State.allocVal] at made
  rw [Outcome.text]
  cases str : x.str with
  | none =>
      rw [str] at made
      obtain ⟨-, rfl⟩ : s = t ∧ none = v := by simpa using made
      rfl
  | some w =>
      simp only [str] at made
      split_ifs at made
      cases byte : x.sval with
      | none =>
          rw [byte] at made
          obtain ⟨-, rfl⟩ := Prod.mk.inj (Except.ok.inj made)
          rfl
      | some c =>
          rw [byte] at made
          obtain ⟨rfl, rfl⟩ := Prod.mk.inj (Except.ok.inj made)
          rw [Option.bind_some, text, Hash.lookup_insert, if_pos rfl]
          rfl

/-- A node that is what it was has the entry it had. -/
theorem leaf_same {c : ULong} (look : t.nodes.lookup c = s.nodes.lookup c)
    (texts : ∀ m w, t.nodes.lookup c = some m → m.nVal = some w → text t w = text s w) :
    leaf t c = leaf s c := by
  rw [leaf, leaf]
  cases found : t.nodes.lookup c with
  | none => rw [← look, found, Option.bind_none, Option.bind_none]
  | some m =>
      rw [← look, found, Option.bind_some, Option.bind_some,
        var_congr m m rfl rfl fun w is => texts m w found is]

/-- One entry may change when a node does. -/
theorem leaf_setNode (there : s.nodes.lookup a = some n) (change : Node → Node) :
    leaf (s.setNode a change) = Function.update (leaf s) a
      (if (change n).nList then
        (change n).nUp.map fun p => (p, (change n).nName, var s (change n))
      else none) := by
  funext c
  by_cases here : c = a
  · rw [here, Function.update_self, leaf, lookup_setNode there, if_pos rfl]
    rfl
  · rw [Function.update_of_ne here]
    exact leaf_same (by rw [lookup_setNode there, if_neg here]) fun _ _ _ _ => rfl

/-- The end of an open of a node that was found. -/
theorem goes_found (intact : Intact s) {x : Outcome} {act : Action}
    (client : s.filehash.lookup h = some f) (tree : Tree u []) (all : Vals u [])
    (grows : Grows none s u) (files : u.filehash = s.filehash) (groups : u.groups = s.groups)
    {m : Node} (there : u.nodes.lookup a = some m) (spot : m.nList = true ∨ f.fHome = some a)
    (run : s.exec x act =
      (u.move h (some a) fun f => { f with fPos := 0, fMode := x.perm }).bind
        fun t => .ok (t, .ok)) : Shown s (x, act) (leaf u) := by
  have client' : u.filehash.lookup h = some f := by rw [files, client]
  obtain ⟨t, moved, tree', all', frame, look⟩ := move_spec tree all client' (some a)
    (fun f => { f with fPos := 0, fMode := x.perm }) (fun _ => rfl)
    fun w frame tree b is => by
      obtain rfl := Option.some.inj is
      rcases spot with list | home
      · exact frame.stays a m there list
      · refine tree.placed h { f with fNode := none } a ?_ ?_
        · rw [frame.files, lookup_setFile client', if_pos rfl]
        · exact List.mem_append_right _ (by rw [home]; exact List.mem_singleton_self a)
  have at_ : t.nodes.lookup a ≠ none := by
    refine tree'.placed h _ a (by rw [look, if_pos rfl]) ?_
    exact List.mem_append_left _ (List.mem_singleton_self a)
  obtain ⟨m', there'⟩ := Option.ne_none_iff_exists'.mp at_
  rw [moved] at run
  have grows' : Grows none s t :=
    grows.frame (u := { t with filehash := u.filehash }) frame
  refine intact.moved (g := { f with fNode := some a, fPos := 0, fMode := x.perm }) client run tree'
    all' grows' (frame.groups.trans groups).ge (files ▸ look) rfl rfl ?_ nofun frame.leaf
  refine ⟨a, m', rfl, there', ?_⟩
  rcases spot with list | home
  · obtain ⟨m'', before, same, -⟩ := frame.core a m' there'
    rw [there] at before
    obtain rfl := Option.some.inj before
    exact .inl (by rw [same]; exact list)
  · exact .inr (.inr home)

/-- What comes before the end does not take memory in use. -/
theorem taken_of_bind {α β : Type} {e : Except Fault α} {rest : α → Except Fault β}
    (free : taken (e.bind rest) = false) : taken e = false := by
  cases e with
  | ok _ => rfl
  | error fault =>
      cases fault with
      | taken => exact free
      | assfail | wild | endless => rfl

/-- The part of `env_open` for a node that was found. -/
theorem goes_openOld (intact : Intact s) {x : Outcome} {act : Action} {mArg : ULong}
    (client : s.filehash.lookup h = some f) (there : s.nodes.lookup a = some n)
    (spot : n.nList = true ∨ f.fHome = some a) (run : s.exec x act = s.openOld x h a mArg)
    (free : taken (s.exec x act) = false) :
    Shown s (x, act) (if canAccess x.perm mArg && (has mArg ACC_CREATE && !n.nInternal) then
      Function.update (leaf s) a ((leaf s a).map fun l => (l.1, l.2.1, .file x.text))
    else leaf s) := by
  by_cases closed : (!canAccess x.perm mArg) = true
  · refine intact.still (r := .err .EPERM) ?_ ?_
    · rw [run]
      simp only [State.openOld, State.node, there, bind, Except.bind, closed, if_true]
    · rw [(Bool.not_eq_true' _).mp closed, Bool.false_and, if_neg Bool.false_ne_true]
  have open_ : canAccess x.perm mArg = true := by simpa using closed
  by_cases empty : (has mArg ACC_CREATE && !n.nInternal) = true
  · have head : s.exec x act =
        (((s.setNode a fun n => { n with nVal := none }).derefVal n.nVal).bind
          fun s => s.allocVal x).bind fun result =>
            ((result.1.setNode a fun n => { n with nVal := result.2 }).move h (some a)
              fun f => { f with fPos := 0, fMode := x.perm }).bind fun t => .ok (t, .ok) := by
      rw [run]
      simp only [State.openOld, State.node, there, bind, Except.bind, closed, empty, if_true,
        Bool.false_eq_true, if_false]
      cases (s.setNode a fun n => { n with nVal := none }).derefVal n.nVal with
      | error fault => rfl
      | ok u => cases u.allocVal x <;> rfl
    have free' : taken (((s.setNode a fun n => { n with nVal := none }).derefVal n.nVal).bind
        fun s => s.allocVal x) = false := by
      rw [head] at free
      exact taken_of_bind free
    obtain ⟨u, t, v, left, made, tree, all, files, groups, nodes, texts⟩ :=
      truncate_spec intact.tree intact.vals there x free'
    have there' : t.nodes.lookup a = some { n with nVal := none } := by
      rw [nodes, lookup_setNode there, if_pos rfl]
    rw [left] at head
    simp only [Except.bind, made] at head
    have here : (t.setNode a fun n => { n with nVal := v }).nodes.lookup a =
        some { n with nVal := v } := by rw [lookup_setNode there', if_pos rfl]
    have grows : Grows none s (t.setNode a fun n => { n with nVal := v }) := by
      intro b m found
      rw [lookup_setNode there'] at found
      by_cases same : b = a
      · rw [if_pos same] at found
        obtain rfl := Option.some.inj found
        exact .inl ⟨n, same ▸ there, rfl, id⟩
      · rw [if_neg same, nodes, lookup_setNode there, if_neg same] at found
        exact .inl ⟨m, found, rfl, id⟩
    have entries : leaf (t.setNode a fun n => { n with nVal := v }) =
        Function.update (leaf s) a ((leaf s a).map fun l => (l.1, l.2.1, .file x.text)) := by
      funext c
      by_cases same : c = a
      · have file : n.nInternal = false := by
          rw [Bool.and_eq_true, Bool.not_eq_true'] at empty
          exact empty.2
        have is : var (t.setNode a fun n => { n with nVal := v }) { n with nVal := v } =
            .file x.text := by
          rw [var, file, if_neg Bool.false_ne_true]
          exact congrArg Var.file (show v.bind (text t) = x.text from allocVal_text made)
        rw [same, Function.update_self, leaf_eq here, leaf_eq there, is]
        split_ifs
        · rw [Option.map_map]
          rfl
        · rfl
      · rw [Function.update_of_ne same]
        have look : t.nodes.lookup c = s.nodes.lookup c := by
          rw [nodes, lookup_setNode there, if_neg same]
        refine leaf_same (by rw [lookup_setNode there', if_neg same, look]) fun m w found is => ?_
        rw [lookup_setNode there', if_neg same] at found
        exact texts c m w found is
    rw [open_, empty, Bool.and_self, if_pos rfl, ← entries]
    exact goes_found intact client tree all grows files groups here spot head
  · rw [Bool.eq_false_iff.mpr empty, Bool.and_false, if_neg Bool.false_ne_true]
    refine goes_found intact client intact.tree intact.vals (.refl s) rfl rfl there spot ?_
    rw [run]
    simp only [State.openOld, State.node, there, bind, Except.bind, closed, empty,
      Bool.false_eq_true, if_false]

/-- A new node is under the directory of the client, and nothing points at it. -/
theorem allocNode_spec (intact : Intact s) (client : s.filehash.lookup h = some f) {x : Outcome}
    (isdir : Bool) (memory : x.node = some a) (fresh : s.nodes.lookup a = none)
    (free : taken (s.allocNode x f isdir) = false) :
    ∃ t v k, s.allocNode x f isdir = .ok (t, some a) ∧ Tree t [] ∧ Vals t [] ∧
      t.nodes.lookup a = some ⟨[], isdir, v, 0, false, f.fNode, k⟩ ∧ Grows (some a) s t ∧
      t.filehash = s.filehash ∧ t.groups = s.groups ∧ leaf t = leaf s ∧
      (isdir = false → v.bind (text t) = x.text) := by
  obtain ⟨p, parent, at_, above⟩ := intact.spot client
  have string : ∃ u v, (if isdir then .ok (s, none) else s.allocVal x) = Except.ok (u, v) ∧
      Vals u (v.toList ++ []) ∧ SameTree s u ∧ (isdir = false → v.bind (text u) = x.text) := by
    cases isdir with
    | true => exact ⟨s, none, rfl, intact.vals, .refl s, nofun⟩
    | false =>
        have free' : taken (s.allocVal x) = false := by
          simp only [State.allocNode, memory] at free
          exact taken_of_bind free
        obtain ⟨u, v, made, all, same⟩ := allocVal_spec intact.vals intact.tree.nodeKeys x free'
        exact ⟨u, v, made, all, same, fun _ => allocVal_text made⟩
  obtain ⟨u, v, made, all₁, same, memory'⟩ := string
  obtain ⟨w, counted, tree₂, all₂, frame⟩ := refNode_spec (same.tree intact.tree) all₁ f.fNode
    fun b is => by
      obtain rfl := Option.some.inj (at_.symm.trans is)
      rw [same.nodes, above]
      exact Option.some_ne_none parent
  have frame' := same.frame.trans frame
  have fresh' := frame'.absent fresh
  rw [at_, Option.toList_some, List.singleton_append] at tree₂
  refine ⟨{ w with
    nodes := w.nodes.insert a ⟨[], isdir, v, 0, false, f.fNode, w.made.length⟩
    made := a :: w.made }, v, w.made.length, ?_, ?_, ?_, ?_, fun b m found => ?_, frame'.files,
    frame'.groups, ?_, fun file => ?_⟩
  · simp only [State.allocNode, memory, bind, Except.bind]
    split_ifs at made ⊢
    · obtain ⟨rfl, rfl⟩ : s = u ∧ none = v := by simpa using made
      rw [counted]
    · rw [made]
      simp only [counted]
  · exact tree₂.insert fresh' at_ rfl rfl (fun _ _ => rfl) rfl rfl rfl rfl
  · refine all₂.congr tree₂.nodeKeys rfl rfl rfl fun c => ?_
    rw [Srv.pointers_insert, List.append_nil]
    show v.toList.count c + _ + 0 = _
    omega
  · rw [Hash.lookup_insert, if_pos rfl]
  · rw [Hash.lookup_insert] at found
    split_ifs at found with here
    · exact .inr ⟨here ▸ fresh, .inr (by rw [here])⟩
    · obtain ⟨m', there, is, live⟩ := frame'.core b m found
      exact .inl ⟨m', there, by rw [is], live⟩
  · rw [← frame'.leaf]
    funext c
    by_cases here : c = a
    · rw [here, leaf, leaf, Hash.lookup_insert, if_pos rfl, fresh', Option.bind_some,
        if_neg Bool.false_ne_true, Option.bind_none]
    · exact leaf_same (by rw [Hash.lookup_insert, if_neg here]) fun _ _ _ _ => rfl
  · rw [← memory' file]
    cases v with
    | none => rfl
    | some c =>
        show text w c = text u c
        rw [text, text, refNode_strings counted]

/-- The new node changes. -/
theorem Grows.setNode (grows : Grows (some a) s t) (fresh : s.nodes.lookup a = none)
    (change : Node → Node) : Grows (some a) s (t.setNode a change) := by
  intro b m found
  rw [State.setNode, Hash.lookup_modify] at found
  by_cases here : b = a
  · exact .inr ⟨here ▸ fresh, .inr (by rw [here])⟩
  · rw [if_neg here] at found
    exact grows b m found

/-- A node that is there and was not at the start is not the root. -/
theorem Tree.ne_root (tree : Tree s hand) (fresh : s.nodes.lookup a = none) : a ≠ rootnode := by
  rintro rfl
  obtain ⟨r, top, -⟩ := tree.root
  rw [fresh] at top
  cases top

/-- The part of `env_open` that makes a node under a name. -/
theorem goes_openNew (intact : Intact s) {x : Outcome} {act : Action} {name : List UChar}
    {mArg : ULong} (client : s.filehash.lookup h = some f) (memory : x.node = some a)
    (entry : x.entry = true) (fresh : s.nodes.lookup a = none)
    (run : s.exec x act = s.openNew x h f name mArg) (free : taken (s.exec x act) = false)
    (at_ : f.fNode = some p) :
    Shown s (x, act) (Function.update (leaf s) a (some (p, name, x.made mArg))) := by
  obtain ⟨u, v, k, made, tree, all, there, grows, files, groups, entries, memory'⟩ :=
    allocNode_spec intact client (has mArg ACC_DIR) memory fresh (by
      rw [run] at free
      exact taken_of_bind free)
  -- the node gets its name
  have tree₁ : Tree (u.setNode a fun n => { n with nName := name }) [] := by
    refine tree.keep a ?_ ?_ ?_ ?_
    all_goals exact fun _ => rfl
  have all₁ : Vals (u.setNode a fun n => { n with nName := name }) [] :=
    all.setNode tree.nodeKeys fun _ => rfl
  have there₁ : (u.setNode a fun n => { n with nName := name }).nodes.lookup a =
      some ⟨name, has mArg ACC_DIR, v, 0, false, f.fNode, k⟩ := by
    rw [lookup_setNode there, if_pos rfl]
  obtain ⟨w, counted, tree₂, all₂, frame⟩ := refNode_spec tree₁ all₁ (some a) fun b is => by
    obtain rfl := Option.some.inj is
    rw [there₁]
    exact Option.some_ne_none _
  obtain ⟨m₂, there₂⟩ := Option.ne_none_iff_exists'.mp
    (tree₂.held a (List.mem_singleton_self a))
  have same₂ : m₂ = ⟨name, has mArg ACC_DIR, v, m₂.nRefs, false, f.fNode, k⟩ := by
    obtain ⟨m', before, same, -⟩ := frame.core a m₂ there₂
    rw [there₁] at before
    obtain rfl := Option.some.inj before
    exact same
  have list₂ : m₂.nList = false := by rw [same₂]
  -- and its place in the list
  have tree₃ : Tree (w.setNode a fun n => { n with nList := true }) [] := by
    refine tree₂.update _ (setNode_nodes _) (fun b n => ⟨edit_same Node.nUp ?_ b n,
      edit_same Node.born ?_ b n⟩) (fun n => ?_) rfl rfl rfl (fun b n found => ?_) nofun
    · exact fun _ => rfl
    · exact fun _ => rfl
    · rw [edit, if_neg (intact.tree.ne_root fresh).symm]
    · rw [edit]
      by_cases here : b = a
      · rw [here, there₂] at found
        obtain rfl := Option.some.inj found
        rw [if_pos here, here, list₂]
        show m₂.nRefs + 0 + List.count a [a] = m₂.nRefs + 1 + 0
        rw [List.count_singleton_self]
      · rw [if_neg here]
        show _ + List.count b [a] = _ + List.count b []
        rw [List.count_singleton, if_neg (by rw [beq_iff_eq]; exact Ne.symm here)]
        rfl
  have all₃ : Vals (w.setNode a fun n => { n with nList := true }) [] :=
    all₂.setNode tree₂.nodeKeys fun _ => rfl
  have there₃ : (w.setNode a fun n => { n with nList := true }).nodes.lookup a =
      some { m₂ with nList := true } := by rw [lookup_setNode there₂, if_pos rfl]
  have grows₃ : Grows (some a) s (w.setNode a fun n => { n with nList := true }) :=
    ((grows.setNode fresh _).frame frame).setNode fresh _
  have files₃ : (w.setNode a fun n => { n with nList := true }).filehash = s.filehash :=
    frame.files.trans files
  have entries₃ : leaf (w.setNode a fun n => { n with nList := true }) =
      Function.update (leaf s) a (some (p, name, x.made mArg)) := by
    rw [leaf_setNode there₂, frame.leaf, leaf_setNode there, entries, Function.update_idem,
      if_pos rfl]
    have up : m₂.nUp = some p := by rw [same₂, at_]
    have named : m₂.nName = name := by rw [same₂]
    have is : var w m₂ = x.made mArg := by
      rw [frame.var there₂ there₁, var, Outcome.made]
      cases dir : has mArg ACC_DIR with
      | true => rfl
      | false =>
          rw [if_neg Bool.false_ne_true, if_neg Bool.false_ne_true]
          exact congrArg Var.file (memory' dir)
    rw [← is, ← named]
    show Function.update (leaf s) a (m₂.nUp.map fun p => (p, m₂.nName, var w m₂)) = _
    rw [up, Option.map_some]
  obtain ⟨t, moved, tree', all', frame', look⟩ := move_spec tree₃ all₃ (files₃ ▸ client)
    (some a) id (fun _ => rfl) fun v frame _ b is => by
      obtain rfl := Option.some.inj is
      exact frame.stays a _ there₃ rfl
  have run' : s.exec x act = .ok (t, .ok) := by
    rw [run]
    simp only [State.openNew, made, State.deep, counted, entry, moved, bind, Except.bind,
      Bool.not_true, Bool.false_eq_true, if_false]
  have grows' : Grows (some a) s t := grows₃.frame
    (u := { t with filehash := (w.setNode a fun n => { n with nList := true }).filehash }) frame'
  refine intact.moved (g := { f with fNode := some a }) client run' tree' all' grows'
    (frame'.groups.trans (frame.groups.trans groups)).ge (fun k => ?_) rfl rfl ?_ (fun b is => ?_)
    (Eq.trans frame'.leaf entries₃)
  · rw [look, files₃]
    rfl
  · have at_ : t.nodes.lookup a ≠ none := frame'.stays a _ there₃ rfl
    obtain ⟨m₄, there₄⟩ := Option.ne_none_iff_exists'.mp at_
    obtain ⟨m', before, same, -⟩ := frame'.core a m₄ there₄
    rw [there₃] at before
    obtain rfl := Option.some.inj before
    exact ⟨a, m₄, rfl, there₄, .inl (by rw [same])⟩
  · exact List.mem_append_left _ (by rw [is]; exact List.mem_singleton_self b)

/-- A group without a home gets one. -/
theorem setHome_spec {hs : List Handle} (nodup : hs.Nodup) (tree : Tree s hand) (all : Vals s vals)
    (there : s.nodes.lookup a ≠ none)
    (homeless : ∀ k ∈ hs, ∃ g, s.filehash.lookup k = some g ∧ g.fHome = none) :
    ∃ t, s.setHome (some a) hs = .ok t ∧ Tree t hand ∧ Vals t vals ∧
      Frame s { t with filehash := s.filehash } ∧ ∀ k, t.filehash.lookup k =
        if k ∈ hs then (s.filehash.lookup k).map fun g => { g with fHome := some a }
        else s.filehash.lookup k := by
  induction hs generalizing s with
  | nil => exact ⟨s, rfl, tree, all, (SameTree.refl s).frame, fun k => (if_neg List.not_mem_nil).symm⟩
  | cons h hs ih =>
      obtain ⟨apart, nodup'⟩ := List.nodup_cons.mp nodup
      obtain ⟨g, client, home⟩ := homeless h List.mem_cons_self
      have bare : File.ptrs { g with fHome := none } = g.fNode.toList := List.append_nil _
      obtain ⟨u, taken, tree₁, all₁, frame₁, look₁⟩ := swap_spec tree all client
        { g with fHome := none } { g with fHome := some a } g.fHome (some a) (fun b => by rw [bare, File.ptrs, List.count_append])
        (fun b => by rw [bare]; exact List.count_append) fun u left _ _ b is => by
          rw [home] at left
          obtain rfl := Except.ok.inj left
          obtain rfl := Option.some.inj is
          exact there
      have there₁ : u.nodes.lookup a ≠ none := by
        refine tree₁.placed h { g with fHome := some a } a (by rw [look₁, if_pos rfl]) ?_
        exact List.mem_append_right _ (List.mem_singleton_self a)
      obtain ⟨t, run, tree', all', frame', look⟩ := ih nodup' tree₁ all₁ there₁ fun k member => by
        have other : k ≠ h := by
          rintro rfl
          exact apart member
        rw [look₁, if_neg other]
        exact homeless k (List.mem_cons_of_mem h member)
      refine ⟨t, ?_, tree', all', frame₁.trans ?_, fun k => ?_⟩
      · simp only [State.setHome, State.file, client, bind, Except.bind, taken, run]
      · exact ⟨rfl, frame'.groups, frame'.made, frame'.core, frame'.stays, frame'.texts⟩
      · rw [look, look₁]
        by_cases here : k = h
        · rw [here, if_neg apart, if_pos rfl, if_pos List.mem_cons_self, client]
          rfl
        · rw [if_neg here]
          simp only [List.mem_cons, here, false_or]

/-- The members of a group. -/
theorem mem_members (distinct : s.filehash.Distinct) (group : ℕ) (k : Handle) :
    k ∈ s.members group ↔ ∃ g, s.filehash.lookup k = some g ∧ g.group = group := by
  rw [State.members, List.mem_map]
  constructor
  · rintro ⟨⟨k, g⟩, member, rfl⟩
    obtain ⟨inside, same⟩ := List.mem_filter.mp member
    exact ⟨g, distinct.lookup_of_mem inside, of_decide_eq_true same⟩
  · rintro ⟨g, client, same⟩
    refine ⟨(k, g), List.mem_filter.mpr ⟨?_, decide_eq_true same⟩, rfl⟩
    exact (Hash.perm_delete client).mem_iff.mpr List.mem_cons_self

theorem nodup_members (distinct : s.filehash.Distinct) (group : ℕ) : (s.members group).Nodup :=
  distinct.sublist (List.filter_sublist.map Prod.fst)

/-- A client of a group after the group got a home; one of them is at it. -/
def homed (group : ℕ) (a : ULong) (h k : Handle) (g : File) : File :=
  if g.group = group then
    { g with fHome := some a, fNode := if k = h then some a else g.fNode }
  else g

theorem homed_group (group : ℕ) (a : ULong) (h k : Handle) (g : File) :
    (homed group a h k g).group = g.group := by
  rw [homed]
  split_ifs <;> rfl

theorem homed_fHome (group : ℕ) (a : ULong) (h k : Handle) (g : File) :
    (homed group a h k g).fHome = if g.group = group then some a else g.fHome := by
  rw [homed]
  split_ifs <;> rfl

/-- The part of `env_open` that makes a home. -/
theorem goes_openHome (intact : Intact s) {x : Outcome} {act : Action} {mArg : ULong}
    (client : s.filehash.lookup h = some f) (homeless : f.fHome = none) (memory : x.node = some a)
    (fresh : s.nodes.lookup a = none) (run : s.exec x act = s.openHome x h f mArg)
    (free : taken (s.exec x act) = false) : Shown s (x, act) (leaf s) := by
  obtain ⟨u, v, k, made, tree, all, there, grows, files, groups, entries, -⟩ :=
    allocNode_spec intact client (has mArg ACC_DIR) memory fresh (by
      rw [run] at free
      exact taken_of_bind free)
  have member := mem_members tree.clientKeys f.group
  obtain ⟨w, set_, tree₁, all₁, frame₁, look₁⟩ := setHome_spec
    (nodup_members tree.clientKeys f.group) tree all (a := a)
    (by rw [there]; exact Option.some_ne_none _) fun k inside => by
      obtain ⟨g, client', same⟩ := (member k).mp inside
      refine ⟨g, client', ?_⟩
      rw [intact.placed.share k g h f (files ▸ client') client same, homeless]
  have client₁ : w.filehash.lookup h = some { f with fHome := some a } := by
    rw [look₁, if_pos ((member h).mpr ⟨f, files ▸ client, rfl⟩), files, client]
    rfl
  obtain ⟨t, moved, tree', all', frame', look'⟩ := move_spec tree₁ all₁ client₁ (some a) id
    (fun _ => rfl) fun v frame tree b is => by
      obtain rfl := Option.some.inj is
      refine tree.placed h { f with fNode := none, fHome := some a } a ?_ ?_
      · rw [frame.files, lookup_setFile client₁, if_pos rfl]
      · exact List.mem_append_right _ (List.mem_singleton_self a)
  have run' : s.exec x act = .ok (t, .ok) := by
    rw [run]
    simp only [State.openHome, made, set_, moved, bind, Except.bind]
  have look : ∀ k, t.filehash.lookup k =
      (s.filehash.lookup k).map (homed f.group a h k) := by
    intro k
    rw [look', look₁, files]
    cases client' : s.filehash.lookup k with
    | none =>
        have apart : k ≠ h := by
          rintro rfl
          rw [client] at client'
          cases client'
        rw [if_neg apart]
        split_ifs <;> rfl
    | some g =>
        have inside : k ∈ u.members f.group ↔ g.group = f.group := by
          rw [member, files, client']
          exact ⟨fun ⟨_, is, same⟩ => Option.some.inj is ▸ same, fun same => ⟨g, rfl, same⟩⟩
        by_cases here : k = h
        · rw [here, client] at client'
          obtain rfl := Option.some.inj client'
          rw [if_pos here, Option.map_some, homed, if_pos rfl, if_pos here]
          rfl
        · rw [if_neg here]
          by_cases same : g.group = f.group
          · rw [if_pos (inside.mpr same), Option.map_some, Option.map_some, homed, if_pos same,
              if_neg here]
          · rw [if_neg fun member => same (inside.mp member), Option.map_some, homed,
              if_neg same]
  have grows' : Grows (some a) s t :=
    (grows.frame (u := { w with filehash := u.filehash }) frame₁).frame
      (t := { w with filehash := u.filehash }) (u := { t with filehash := u.filehash })
      ⟨rfl, frame'.groups, frame'.made, frame'.core, frame'.stays, frame'.texts⟩
  have groups' : t.groups = s.groups := frame'.groups.trans (frame₁.groups.trans groups)
  refine ⟨t, .ok, run', ⟨tree', all', grows'.live tree' intact.live fun b is => ?_, ?_, ?_, ?_, ?_⟩,
    frame'.leaf.trans (Eq.trans frame₁.leaf entries)⟩
  · obtain rfl := Option.some.inj is
    have own : t.filehash.lookup h = some (homed f.group a h h f) := by
      rw [look, client]
      rfl
    refine Srv.pointers_pos own ?_
    · rw [homed, if_pos rfl, if_pos rfl]
      exact List.mem_append_left _ (List.mem_singleton_self a)
  · intro k g' client'
    have placed := tree'.placed k g'
    rw [look] at client' placed
    obtain ⟨g, before, rfl⟩ := Option.map_eq_some_iff.mp client'
    have there' := fun b => placed b client'
    by_cases same : g.group = f.group
    · rw [homed, if_pos same] at there' ⊢
      have none_ : g.fHome = none := by
        rw [intact.placed.share k g h f before client same, homeless]
      by_cases here : k = h
      · simp only [here, if_true] at there' ⊢
        obtain ⟨m', found⟩ := Option.ne_none_iff_exists'.mp
          (there' a (List.mem_append_left _ (List.mem_singleton_self a)))
        exact ⟨a, m', rfl, found, .inr (.inr rfl)⟩
      · simp only [here, if_false] at there' ⊢
        obtain ⟨b, m', at_, found, spot⟩ := (intact.placed.stands k g before).grows grows'
          fun b points => by
            rw [File.ptrs, none_, Option.toList_none, List.append_nil] at points
            exact there' b (List.mem_append_left _ points)
        refine ⟨b, m', at_, found, ?_⟩
        rcases spot with list | top | home
        · exact .inl list
        · exact .inr (.inl top)
        · rw [none_] at home
          cases home
    · rw [homed, if_neg same] at there' ⊢
      exact (intact.placed.stands k g before).grows grows' there'
  · intro k g l g' client' client'' same
    rw [look] at client' client''
    obtain ⟨g, before, rfl⟩ := Option.map_eq_some_iff.mp client'
    obtain ⟨g', before', rfl⟩ := Option.map_eq_some_iff.mp client''
    rw [homed_group, homed_group] at same
    rw [homed_fHome, homed_fHome, same, intact.placed.share k g l g' before before' same]
  · intro k g client'
    rw [look] at client'
    obtain ⟨g, before, rfl⟩ := Option.map_eq_some_iff.mp client'
    rw [homed_fHome]
    split_ifs
    · exact fun top => intact.tree.ne_root fresh (Option.some.inj top)
    · exact intact.placed.inner k g before
  · intro k g client'
    rw [look] at client'
    obtain ⟨g, before, rfl⟩ := Option.map_eq_some_iff.mp client'
    rw [homed_group, groups']
    exact intact.placed.fresh k g before

/-- What an open touches. -/
theorem touched_open (x : Outcome) (name : List UChar) (mArg : ULong)
    (client : s.filehash.lookup h = some f) (at_ : f.fNode = some p)
    (above : s.nodes.lookup p = some n) :
    touched s x (.open_ h name mArg) =
      if !n.nInternal || NAMESZ ≤ name.length || !has mArg ACC_CREATE then none
      else match s.found f p name with
        | some (b, m) =>
            if canAccess x.perm mArg && !m.nInternal then
              some (b, (leaf s b).map fun l => (l.1, l.2.1, .file x.text))
            else none
        | none =>
            if has f.fMode ACC_WRITE && name ≠ homeName then
              x.node.map fun b => (b, some (p, name, x.made mArg))
            else none := by
  simp only [touched, client, at_, above, bind, Option.bind_some] <;> rfl

theorem goes_open (intact : Intact s) (x : Outcome) {name : List UChar} {mArg : ULong}
    (legal : Legal s (x, .open_ h name mArg)) (fits : Fits s (x, .open_ h name mArg)) :
    Shown s (x, .open_ h name mArg) (after s x (.open_ h name mArg)) := by
  obtain ⟨fresh, -, free, known⟩ := legal
  obtain ⟨f, client⟩ := Option.ne_none_iff_exists'.mp known
  obtain ⟨p, parent, at_, above⟩ := intact.spot client
  have look : ∃ r, (if name = homeName then .ok f.fHome
      else s.lookup f.fNode name (!has mArg ACC_CREATE)) = Except.ok r ∧
      (∀ b, r = some b → ∃ m, s.nodes.lookup b = some m ∧ (m.nList = true ∨ f.fHome = some b)) ∧
      (has mArg ACC_CREATE = true → r = (s.found f p name).map Prod.fst ∧
        ∀ b m, s.found f p name = some (b, m) → s.nodes.lookup b = some m) := by
    by_cases home : name = homeName
    · have there : ∀ b, f.fHome = some b → ∃ m, s.nodes.lookup b = some m := fun b is =>
        Option.ne_none_iff_exists'.mp (intact.tree.placed h f b client
          (List.mem_append_right _ (Option.mem_toList.mpr is)))
      refine ⟨f.fHome, if_pos home, fun b is => ?_, fun _ => ?_⟩
      · obtain ⟨m, found⟩ := there b is
        exact ⟨m, found, .inr is⟩
      · rw [State.found, if_pos home]
        cases is : f.fHome with
        | none => exact ⟨rfl, nofun⟩
        | some b =>
            obtain ⟨m, found⟩ := there b is
            rw [Option.bind_some, found]
            refine ⟨rfl, fun c k same => ?_⟩
            obtain ⟨rfl, rfl⟩ := Prod.mk.inj (Option.some.inj same)
            exact found
    · obtain ⟨r, done, sound⟩ := lookup_spec intact.tree above name (!has mArg ACC_CREATE)
      refine ⟨r, by rw [if_neg home, at_, done], fun b is => ?_, fun creating => ?_⟩
      · obtain ⟨m, there, list, -⟩ := sound b is
        exact ⟨m, there, .inl list⟩
      · rw [State.found, if_neg home]
        refine ⟨?_, fun b m found => (entry_spec intact.tree found).1⟩
        rw [creating, Bool.not_true, lookup_down above] at done
        exact (Except.ok.inj done).symm
  obtain ⟨r, done, sound, same⟩ := look
  have head : s.exec x (.open_ h name mArg) =
      if !parent.nInternal || NAMESZ ≤ name.length then .ok (s, .err .EINVAL)
      else r.elim
        (if !has mArg ACC_CREATE then .ok (s, .err .ESRCH)
          else if !has f.fMode ACC_WRITE then .ok (s, .err .EPERM)
          else if name = homeName then s.openHome x h f mArg
          else s.openNew x h f name mArg) fun a => s.openOld x h a mArg := by
    rw [at_] at done
    simp only [State.exec, State.envOpen, State.file, client, State.deep, at_, State.node, above,
      bind, Except.bind]
    by_cases home : name = homeName
    · rw [if_pos home] at done
      rw [Except.ok.inj done, if_pos home]
      cases r <;> rfl
    · rw [if_neg home] at done
      rw [if_neg home, done]
      cases r <;> rfl
  have made := touched_open x name mArg client at_ above
  have still : touched s x (.open_ h name mArg) = none →
      after s x (.open_ h name mArg) = leaf s := fun nothing => congrArg (touch (leaf s)) nothing
  by_cases unfit : (!parent.nInternal || decide (NAMESZ ≤ name.length)) = true
  · rw [if_pos unfit] at head
    rw [unfit, Bool.true_or, if_pos rfl] at made
    exact intact.still head (still made)
  rw [if_neg unfit] at head
  rw [Bool.eq_false_iff.mpr unfit, Bool.false_or] at made
  by_cases creating : (!has mArg ACC_CREATE) = true
  · rw [if_pos creating] at made
    cases r with
    | some a =>
        obtain ⟨m, there, spot⟩ := sound a rfl
        have shown := goes_openOld intact client there spot head free
        rw [(Bool.not_eq_true' _).mp creating, Bool.false_and, Bool.and_false,
          if_neg Bool.false_ne_true] at shown
        rw [still made]
        exact shown
    | none =>
        rw [Option.elim_none, if_pos creating] at head
        exact intact.still head (still made)
  rw [if_neg creating] at made
  rw [Bool.not_eq_true, Bool.not_eq_false'] at creating
  obtain ⟨result, known⟩ := same creating
  cases found : s.found f p name with
  | some e =>
      obtain ⟨a, m⟩ := e
      rw [found] at result made
      obtain rfl : r = some a := result
      have there := known a m found
      obtain ⟨m', there', spot⟩ := sound a rfl
      rw [there] at there'
      obtain rfl := Option.some.inj there'
      have shown := goes_openOld intact client there spot head free
      rw [creating, Bool.true_and] at shown
      have made' : touched s x (.open_ h name mArg) =
          if canAccess x.perm mArg && !m.nInternal then
            some (a, (leaf s a).map fun l => (l.1, l.2.1, .file x.text))
          else none := made
      rw [show after s x (.open_ h name mArg) = _ from congrArg (touch (leaf s)) made']
      split_ifs at shown ⊢ <;> exact shown
  | none =>
      rw [found] at result made
      obtain rfl : r = none := result
      rw [Option.elim_none, if_neg (by rw [creating]; exact Bool.false_ne_true)] at head
      by_cases closed : (!has f.fMode ACC_WRITE) = true
      · rw [if_pos closed] at head
        simp only [(Bool.not_eq_true' _).mp closed, Bool.false_and, Bool.false_eq_true,
          if_false] at made
        exact intact.still head (still made)
      rw [if_neg closed] at head
      rw [Bool.not_eq_true, Bool.not_eq_false'] at closed
      rw [Bool.or_eq_true, not_or, decide_eq_true_eq] at unfit
      have makes : Makes s f name mArg := by
        refine ⟨fun a n is found => ?_, Nat.lt_of_not_le unfit.2, creating, closed, ?_⟩
        · obtain rfl := Option.some.inj (at_.symm.trans is)
          obtain rfl := Option.some.inj (above.symm.trans found)
          simpa using unfit.1
        · rw [creating] at done
          split_ifs at done ⊢
          · exact Except.ok.inj done
          · exact done
      obtain ⟨memory, entry⟩ := fits f client makes
      obtain ⟨a, memory⟩ := Option.ne_none_iff_exists'.mp memory
      have memory : x.node = some a := memory
      have fresh' : s.nodes.lookup a = none := by
        refine fresh a (List.mem_append_left _ (List.mem_append_left _ ?_))
        exact Option.mem_toList.mpr memory
      by_cases home : name = homeName
      · rw [if_pos home] at head done
        simp only [home, ne_eq, not_true_eq_false, decide_false, Bool.and_false,
          Bool.false_eq_true, if_false] at made
        rw [still (home ▸ made)]
        exact goes_openHome intact client (Except.ok.inj done) memory fresh' head free
      · rw [if_neg home] at head
        simp only [closed, home, ne_eq, not_false_eq_true, decide_true, Bool.and_self, if_true,
          memory, Option.map_some] at made
        rw [show after s x (.open_ h name mArg) = _ from congrArg (touch (leaf s)) made]
        exact goes_openNew intact client memory (entry home) fresh' head free at_

/-! ## Forks -/

/-- A list of which the counts change. -/
theorem elems_mapVals {change : ULong → Node → Node} (nodes : t.nodes = s.nodes.mapVals change)
    (kept : ∀ k n, (change k n).nList = n.nList ∧ (change k n).nUp = n.nUp) (p : ULong) :
    t.elems p = (s.elems p).mapVals change := by
  rw [State.elems, State.elems, nodes, Hash.mapVals, Hash.mapVals, ← List.map_reverse,
    List.filter_map]
  refine congrArg (List.map _) (List.filter_congr fun e _ => ?_)
  simp only [Function.comp_apply, (kept e.1 e.2).1, (kept e.1 e.2).2]

theorem refNode_nodes {o : Option ULong} (run : s.refNode o = .ok t) :
    ∃ change : ULong → Node → Node, t.nodes = s.nodes.mapVals change ∧
      ∀ k n, change k n = { n with nRefs := (change k n).nRefs } := by
  cases o with
  | none =>
      obtain rfl := Except.ok.inj run
      exact ⟨fun _ n => n, (List.map_id _).symm, fun _ _ => rfl⟩
  | some a =>
      cases there : s.nodes.lookup a with
      | none =>
          simp only [State.refNode, State.node, there, bind, Except.bind] at run
          cases run
      | some n =>
          simp only [State.refNode, State.node, there, bind, Except.bind] at run
          obtain rfl := Except.ok.inj run
          refine ⟨_, setNode_nodes _, fun k m => ?_⟩
          rw [edit]
          split_ifs <;> rfl

/-- The counts of what is copied do not matter. -/
theorem copied_mapVals {change : ULong → Node → Node}
    (kept : ∀ k n, change k n = { n with nRefs := (change k n).nRefs }) (elems : Hash Node)
    (copies : List (Option ULong)) (leaves : ULong → Option Leaf) :
    copied s a (elems.mapVals change) copies leaves = copied s a elems copies leaves := by
  induction elems generalizing copies leaves with
  | nil => rfl
  | cons e rest ih =>
      obtain ⟨k, n⟩ := e
      have dir : (change k n).nInternal = n.nInternal := by rw [kept]
      have name : (change k n).nName = n.nName := by rw [kept]
      have val : (change k n).nVal = n.nVal := by rw [kept]
      have is : var s (change k n) = var s n := var_congr _ _ dir val fun _ _ => rfl
      rw [show Hash.mapVals ((k, n) :: rest) change = (k, change k n) :: Hash.mapVals rest change
        from rfl, copied.eq_def, copied.eq_def]
      simp only [dir, name, is, ih]

/-- Who is where does not matter for what is copied. -/
theorem copied_congr (vars : ∀ n, var t n = var s n) (elems : Hash Node)
    (copies : List (Option ULong)) (leaves : ULong → Option Leaf) :
    copied t a elems copies leaves = copied s a elems copies leaves := by
  induction elems generalizing copies leaves with
  | nil => rfl
  | cons e rest ih =>
      obtain ⟨k, n⟩ := e
      rw [copied.eq_def, copied.eq_def]
      simp only [vars, ih]

/-- The copies of what is in a home, for which there is memory and a place. -/
theorem copyElems_spec {u : State} {x : Outcome} (elems : Hash Node) {copies : List (Option ULong)}
    (tree : Tree s (a :: hand)) (all : Vals s vals) (grows : Grows (some a) u s)
    (fresh : ∀ b, some b ∈ copies → u.nodes.lookup b = none ∧ s.nodes.lookup b = none)
    (nodup : (copies.flatMap Option.toList).Nodup)
    (places : ∀ b, some b ∈ copies → x.copyEntry b = true)
    (kept : ∀ e ∈ elems, ∃ m, s.nodes.lookup e.1 = some m ∧ m.nList = true ∧ m.nVal = e.2.nVal)
    (vars : ∀ e ∈ elems, var s e.2 = var u e.2) :
    ∃ t, s.copyElems x a elems copies = .ok t ∧ Tree t (a :: hand) ∧ Vals t vals ∧
      Grows (some a) u t ∧ t.filehash = s.filehash ∧ t.groups = s.groups ∧
      leaf t = copied u a elems copies (leaf s) := by
  induction elems generalizing s copies with
  | nil => exact ⟨s, rfl, tree, all, grows, rfl, rfl, rfl⟩
  | cons e rest ih =>
      obtain ⟨k, n2⟩ := e
      have kept' := fun e member => kept e (List.mem_cons_of_mem _ member)
      have vars' := fun e member => vars e (List.mem_cons_of_mem _ member)
      rw [State.copyElems.eq_def, copied.eq_def]
      by_cases dir : n2.nInternal = true
      · simp only [if_pos dir]
        exact ih tree all grows fresh nodup places kept' vars'
      simp only [if_neg dir]
      cases copies with
      | nil => exact ⟨s, rfl, tree, all, grows, rfl, rfl, rfl⟩
      | cons copy copies =>
          have places' := fun b member => places b (List.mem_cons_of_mem _ member)
          cases copy with
          | none =>
              exact ih tree all grows (fun b member => fresh b (List.mem_cons_of_mem _ member))
                nodup places' kept' vars'
          | some b =>
              obtain ⟨absent₀, absent⟩ := fresh b List.mem_cons_self
              obtain ⟨apart, nodup'⟩ := List.nodup_cons.mp nodup
              obtain ⟨m, there, list, value⟩ := kept (k, n2) List.mem_cons_self
              obtain ⟨v, counted, all₁, same⟩ := refVal_spec all n2.nVal fun v is =>
                all.there k m v there (value.trans is)
              obtain ⟨w, counted', tree₂, all₂, frame⟩ := refNode_spec (same.tree tree) all₁ (some a)
                fun c is => by
                  obtain rfl := Option.some.inj is
                  exact (same.tree tree).held a List.mem_cons_self
              have frame' := same.frame.trans frame
              have absent' := frame'.absent absent
              have nobody := tree.nobody absent
              rw [Option.toList_some, List.singleton_append] at tree₂
              let t : State := { w with
                nodes := w.nodes.insert b
                  { n2 with nRefs := 1, nList := true, nUp := some a, born := w.made.length }
                made := b :: w.made }
              have look : ∀ c, c ≠ b → t.nodes.lookup c = w.nodes.lookup c := fun c other => by
                rw [Hash.lookup_insert, if_neg other]
              have tree₃ : Tree t (a :: hand) :=
                tree₂.insert (t := t) absent' rfl rfl (by rw [nobody.2]; rfl) (fun _ _ => rfl) rfl
                  rfl rfl rfl
              have all₃ : Vals t vals := by
                refine all₂.congr tree₂.nodeKeys rfl rfl rfl fun c => ?_
                rw [Srv.pointers_insert, List.count_append]
                show n2.nVal.toList.count c + _ + _ = _
                omega
              have grows₃ : Grows (some a) u t := by
                intro c n found
                by_cases here : c = b
                · rw [here, Hash.lookup_insert, if_pos rfl] at found
                  obtain rfl := Option.some.inj found
                  exact .inr ⟨here ▸ absent₀, .inl rfl⟩
                · rw [look c here] at found
                  exact (grows.frame frame') c n found
              have fresh' : ∀ c, some c ∈ copies →
                  u.nodes.lookup c = none ∧ t.nodes.lookup c = none := by
                intro c member
                have other : c ≠ b := by
                  rintro rfl
                  exact apart (List.mem_flatMap.mpr ⟨some c, member, Option.mem_toList.mpr rfl⟩)
                obtain ⟨first, second⟩ := fresh c (List.mem_cons_of_mem _ member)
                exact ⟨first, (look c other).trans (frame'.absent second)⟩
              have kept₃ : ∀ e ∈ rest, ∃ m, t.nodes.lookup e.1 = some m ∧ m.nList = true ∧
                  m.nVal = e.2.nVal := by
                intro e member
                obtain ⟨m', there', list', value'⟩ := kept' e member
                have other : e.1 ≠ b := by
                  intro here
                  rw [here, absent] at there'
                  cases there'
                obtain ⟨m₂, there₂⟩ := Option.ne_none_iff_exists'.mp
                  (frame'.stays e.1 m' there' list')
                obtain ⟨m₃, before, is, -⟩ := frame'.core e.1 m₂ there₂
                rw [there'] at before
                obtain rfl := Option.some.inj before
                exact ⟨m₂, by rw [look _ other, there₂], by rw [is]; exact list',
                  by rw [is]; exact value'⟩
              have still : ∀ e ∈ (k, n2) :: rest, var t e.2 = var s e.2 := by
                intro e member
                obtain ⟨m', there', list', value'⟩ := kept e member
                obtain ⟨m₂, there₂⟩ := Option.ne_none_iff_exists'.mp
                  (frame'.stays e.1 m' there' list')
                obtain ⟨m₃, before, is, -⟩ := frame'.core e.1 m₂ there₂
                rw [there'] at before
                obtain rfl := Option.some.inj before
                refine var_congr e.2 e.2 rfl rfl fun v value => frame'.texts e.1 m₂ v there₂ ?_
                rw [is, ← value]
                exact value'
              have entries : leaf t = Function.update (leaf s) b
                  (some (a, n2.nName, var u n2)) := by
                funext c
                by_cases here : c = b
                · rw [here, Function.update_self, leaf, Hash.lookup_insert, if_pos rfl,
                    Option.bind_some, if_pos rfl, Option.map_some, ← vars _ List.mem_cons_self,
                    ← still _ List.mem_cons_self]
                  rfl
                · rw [Function.update_of_ne here, ← frame'.leaf]
                  exact leaf_same (look c here) fun _ _ _ _ => rfl
              obtain ⟨t', run, tree', all', grows', files, groups, entries'⟩ :=
                ih tree₃ all₃ grows₃ fresh' nodup' places' kept₃ fun e member =>
                  (still e (List.mem_cons_of_mem _ member)).trans (vars' e member)
              refine ⟨t', ?_, tree', all', grows', files.trans frame'.files,
                groups.trans frame'.groups, entries'.trans (by rw [entries])⟩
              simp only [counted, counted', places b List.mem_cons_self, bind, Except.bind,
                Bool.not_true, Bool.false_eq_true, if_false]
              exact run

/-- The copy of a home is a home. -/
theorem cloneNode_spec (tree : Tree s hand) (all : Vals s vals) {x : Outcome} {old : ULong}
    (there : s.nodes.lookup old = some n) (inner : old ≠ rootnode)
    (fresh : ∀ b ∈ x.news, s.nodes.lookup b = none) (nodup : x.news.Nodup)
    (places : x.clone ≠ none → ∀ b, some b ∈ x.copies → x.copyEntry b = true) :
    ∃ t o, s.cloneNode x old = .ok (t, o) ∧ Tree t (o.toList ++ hand) ∧ Vals t vals ∧
      Grows o s t ∧ t.filehash = s.filehash ∧ t.groups = s.groups ∧
      (∀ a, o = some a → s.nodes.lookup a = none) ∧
      leaf t = x.clone.elim (leaf s) fun a => copied s a (s.elems old) x.copies (leaf s) := by
  cases memory : x.clone with
  | none =>
      refine ⟨s, none, ?_, tree, all, .refl s, rfl, rfl, nofun, rfl⟩
      rw [State.cloneNode, memory]
  | some a =>
      have absent : s.nodes.lookup a = none := fresh a (by
        rw [Outcome.news, memory]
        exact List.mem_append_left _ (List.mem_append_right _ (List.mem_singleton_self a)))
      obtain ⟨p, up⟩ := Option.ne_none_iff_exists'.mp fun top => inner (tree.rooted old n there top)
      obtain ⟨v, counted, tree₁, all₁, frame⟩ := refNode_spec tree all n.nUp fun c is => by
        obtain ⟨m, above, -⟩ := tree.parent old n c there is
        rw [above]
        exact Option.some_ne_none m
      obtain ⟨w, counted', all₂, same⟩ := refVal_spec all₁ n.nVal fun c is => by
        rw [refNode_strings counted]
        exact all.there old n c there is
      rw [up, Option.toList_some, List.singleton_append] at tree₁
      have tree₂ := same.tree tree₁
      have frame' := frame.trans same.frame
      have absent' := frame'.absent absent
      have nobody := tree.nobody absent
      let t : State := { w with
        nodes := w.nodes.insert a { n with nRefs := 1, nList := false, born := w.made.length }
        made := a :: w.made }
      have look : ∀ c, c ≠ a → t.nodes.lookup c = w.nodes.lookup c := fun c other => by
        rw [Hash.lookup_insert, if_neg other]
      have tree₃ : Tree t (a :: hand) := by
        refine tree₂.insert (t := t)
          (n := { n with nRefs := 1, nList := false, born := w.made.length }) absent' up rfl ?_
          (fun b other => ?_) rfl rfl rfl rfl
        · show 1 = 0 + (a :: hand).count a
          rw [List.count_cons_self, nobody.2]
        · rw [List.count_cons_of_ne (Ne.symm other)]
      have all₃ : Vals t vals := by
        refine all₂.congr tree₂.nodeKeys rfl rfl rfl fun c => ?_
        rw [Srv.pointers_insert, List.count_append]
        show n.nVal.toList.count c + _ + _ = _
        omega
      have grows : Grows (some a) s t := by
        intro c m found
        by_cases here : c = a
        · exact .inr ⟨here ▸ absent, .inr (by rw [here])⟩
        · rw [look c here] at found
          exact frame'.grows c m found
      have member : ∀ b, some b ∈ x.copies → b ∈ x.copies.flatMap Option.toList := fun b inside =>
        List.mem_flatMap.mpr ⟨some b, inside, Option.mem_toList.mpr rfl⟩
      rw [Outcome.news, List.nodup_append] at nodup
      obtain ⟨-, nodup', apart⟩ := nodup
      have fresh' : ∀ b, some b ∈ x.copies →
          s.nodes.lookup b = none ∧ t.nodes.lookup b = none := by
        intro b inside
        have first := fresh b (List.mem_append_right _ (member b inside))
        have other : b ≠ a := by
          refine (apart a (List.mem_append_right _ ?_) b (member b inside)).symm
          rw [memory]
          exact List.mem_singleton_self a
        exact ⟨first, (look b other).trans (frame'.absent first)⟩
      have inside : ∀ e ∈ t.elems old, t.nodes.lookup e.1 = some e.2 ∧ e.2.nList = true := by
        intro e member
        rw [State.elems, List.mem_filter, List.mem_reverse, Bool.and_eq_true,
          decide_eq_true_eq] at member
        exact ⟨tree₃.nodeKeys.lookup_of_mem member.1, member.2.1⟩
      have vars : ∀ e ∈ t.elems old, var t e.2 = var s e.2 := by
        intro e member
        obtain ⟨found, list⟩ := inside e member
        have other : e.1 ≠ a := by
          intro here
          rw [here, Hash.lookup_insert, if_pos rfl] at found
          rw [← Option.some.inj found] at list
          cases list
        rw [look _ other] at found
        exact var_congr e.2 e.2 rfl rfl fun v is => frame'.texts e.1 e.2 v found is
      obtain ⟨change, nodes, kept⟩ := refNode_nodes counted
      have list : t.elems old = (s.elems old).mapVals change := by
        rw [← elems_mapVals (same.nodes.trans nodes) fun k n => by rw [kept]; exact ⟨rfl, rfl⟩]
        rw [State.elems, State.elems, show t.nodes.reverse = w.nodes.reverse ++ [(a, _)] from
          List.reverse_cons, List.filter_append, List.filter_singleton, Bool.false_and]
        exact List.append_nil _
      have entries : leaf t = leaf s := by
        rw [← frame'.leaf]
        funext c
        by_cases here : c = a
        · rw [here, leaf, leaf, Hash.lookup_insert, if_pos rfl, absent', Option.bind_some,
            if_neg Bool.false_ne_true, Option.bind_none]
        · exact leaf_same (look c here) fun _ _ _ _ => rfl
      obtain ⟨t', run, tree', all', grows', files, groups, entries'⟩ := copyElems_spec (t.elems old)
        tree₃ all₃ grows fresh' nodup' (places (by rw [memory]; exact Option.some_ne_none a))
        (fun e member => ⟨e.2, (inside e member).1, (inside e member).2, rfl⟩) vars
      refine ⟨t', some a, ?_, tree', all', grows', files.trans frame'.files,
        groups.trans frame'.groups, fun b is => Option.some.inj is ▸ absent, ?_⟩
      swap
      · rw [entries', list, copied_mapVals kept, entries]
        rfl
      simp only [State.cloneNode, memory, State.node, there, counted, counted', bind, Except.bind]
      rw [run]

/-- A client that is in a group of its own, after nodes and its place changed. -/
theorem Intact.forked {x : Outcome} {act : Action} {reply : Reply} (intact : Intact s)
    (run : s.exec x act = .ok (t, reply)) (tree : Tree t []) (all : Vals t [])
    (grows : Grows o s t) (groups : t.groups = s.groups + 1)
    (look : ∀ k, t.filehash.lookup k = if k = h then some g else s.filehash.lookup k)
    (group : g.group = s.groups) (stands : Stands t g) (inner : g.fHome ≠ some rootnode)
    (pointed : ∀ a, o = some a → a ∈ g.ptrs) (entries : leaf t = leaves) :
    Shown s (x, act) leaves := by
  refine ⟨t, reply, run, ⟨tree, all, grows.live tree intact.live fun a is => ?_, ?_⟩, entries⟩
  · exact Srv.pointers_pos (by rw [look, if_pos rfl]) (pointed a is)
  refine intact.placed.next (h := h) grows tree (groups ▸ Nat.le_succ _)
    (fun k g' client' apart => ?_) fun g' client' => ?_
  · rw [look, if_neg apart] at client'
    exact client'
  · rw [look, if_pos rfl] at client'
    obtain rfl := Option.some.inj client'
    refine ⟨stands, inner, by rw [group, groups]; exact Nat.lt_succ_self _, fun k g' client' _ same => ?_⟩
    have old := intact.placed.fresh k g' client'
    rw [← same, group] at old
    exact absurd old (Nat.lt_irrefl _)

/-- The parts of `env_fork`. -/
theorem envFork_eq (client : s.filehash.lookup h = some f) (x : Outcome) : s.envFork x h =
    (f.fHome.elim
      (.ok ({ s.setFile h { f with group := s.groups } with groups := s.groups + 1 }, none))
      fun old =>
        (State.cloneNode { s.setFile h { f with group := s.groups } with groups := s.groups + 1 }
          x old).bind fun r =>
            ((r.1.setFile h { f with group := s.groups, fHome := r.2 }).derefNode (some old)).bind
              fun s => .ok (s, r.2)).bind fun r =>
      if f.fNode = f.fHome then
        (r.1.move h (r.2.or (some rootnode)) id).bind fun s => .ok (s, .ok)
      else .ok (r.1, .ok) := by
  obtain ⟨fNode, fHome, fPos, fMode, group⟩ := f
  simp only [State.envFork, State.file, client, bind, Except.bind]
  cases fHome with
  | none => rfl
  | some old =>
      simp only [Option.elim_some]
      cases State.cloneNode _ x old with
      | error _ => rfl
      | ok r =>
          simp only
          cases State.derefNode _ (some old) <;> rfl

theorem goes_fork (intact : Intact s) (x : Outcome) (legal : Legal s (x, .fork h))
    (fits : Fits s (x, .fork h)) : Shown s (x, .fork h) (after s x (.fork h)) := by
  obtain ⟨fresh, nodup, -, known⟩ := legal
  obtain ⟨f, client⟩ := Option.ne_none_iff_exists'.mp known
  let own : File := { f with group := s.groups }
  let s₁ : State := { s.setFile h own with groups := s.groups + 1 }
  have tree₁ : Tree s₁ [] := by
    have tree : Tree (s.setFile h own) [] := intact.tree.setFile client fun b => rfl
    exact tree.client rfl rfl rfl tree.clientKeys fun _ => rfl
  have all₁ : Vals s₁ [] := intact.vals.congr intact.tree.nodeKeys rfl rfl rfl fun _ => rfl
  have client₁ : s₁.filehash.lookup h = some own := by
    rw [show s₁.filehash = (s.setFile h own).filehash from rfl, lookup_setFile client, if_pos rfl]
  have others : ∀ k, k ≠ h → s₁.filehash.lookup k = s.filehash.lookup k := fun k apart => by
    rw [show s₁.filehash = (s.setFile h own).filehash from rfl, lookup_setFile client,
      if_neg apart]
  have head : s.exec x (.fork h) =
      (f.fHome.elim (.ok (s₁, none)) fun old => (s₁.cloneNode x old).bind fun r =>
        ((r.1.setFile h { own with fHome := r.2 }).derefNode (some old)).bind fun s =>
          .ok (s, r.2)).bind fun r =>
        if f.fNode = f.fHome then
          (r.1.move h (r.2.or (some rootnode)) id).bind fun s => .ok (s, .ok)
        else .ok (r.1, .ok) := envFork_eq client x
  obtain ⟨p, parent, at_, above, spot⟩ := intact.placed.stands h f client
  cases home : f.fHome with
  | none =>
      have elsewhere : f.fNode ≠ f.fHome := by
        rw [at_, home]
        nofun
      have run : s.exec x (.fork h) = .ok (s₁, .ok) := by
        rw [head]
        simp only [if_neg elsewhere]
        rw [home]
        rfl
      have grows : Grows none s s₁ := .refl s
      have entries : after s x (.fork h) = leaf s := by
        rw [after, client, Option.bind_some, home]
      refine intact.forked (h := h) (g := own) run tree₁ all₁ grows rfl (fun k => ?_) rfl
        ⟨p, parent, at_, above, spot⟩ (intact.placed.inner h f client) nofun entries.symm
      by_cases here : k = h
      · rw [if_pos here, here, client₁]
      · rw [if_neg here, others k here]
  | some old =>
      obtain ⟨n, there⟩ := Option.ne_none_iff_exists'.mp (intact.tree.placed h f old client
        (List.mem_append_right _ (Option.mem_toList.mpr home)))
      obtain ⟨u, o, cloned, tree₂, all₂, grows, files, groups, made, entries⟩ := cloneNode_spec tree₁ all₁
        (x := x) there (fun is => intact.placed.inner h f client (is ▸ home)) fresh
        nodup fun memory => fits f client (by rw [home]; nofun) memory
      have entries : leaf u = after s x (.fork h) := by
        rw [entries, after, client, Option.bind_some, home]
        cases x.clone with
        | none => rfl
        | some a =>
            exact copied_congr (t := s₁) (s := s) (fun _ => rfl) (s.elems old) x.copies (leaf s)
      have client₂ : u.filehash.lookup h = some own := by rw [files, client₁]
      let done : File := { own with fHome := o }
      have tree₃ : Tree (u.setFile h done) [old] := tree₂.setFile client₂ fun b => by
        simp only [done, own, File.ptrs, home, List.append_nil, List.count_append,
          Option.toList_some]
        omega
      obtain ⟨v, left, tree₄, all₄, frame⟩ := derefNode_spec (some old) tree₃
        (all₂.setFile tree₂ h done)
      have look₄ : ∀ k, v.filehash.lookup k = if k = h then some done else s.filehash.lookup k := by
        intro k
        rw [frame.files, lookup_setFile client₂, files]
        by_cases here : k = h
        · rw [if_pos here, if_pos here]
        · rw [if_neg here, if_neg here, others k here]
      have client₄ : v.filehash.lookup h = some done := by rw [look₄, if_pos rfl]
      have grows₄ : Grows o s v := by
        have first : Grows o s (u.setFile h done) := grows
        exact first.frame frame
      have inner : o ≠ some rootnode := by
        rintro rfl
        exact intact.tree.ne_root (made rootnode rfl) rfl
      have groups₄ : v.groups = s.groups + 1 := frame.groups.trans groups
      by_cases same : f.fNode = f.fHome
      · obtain ⟨t, moved, tree', all', frame', look'⟩ := move_spec tree₄ all₄ client₄
          (o.or (some rootnode)) id (fun _ => rfl)
          fun w frame tree b is => by
            cases o with
            | none =>
                obtain rfl := Option.some.inj is
                obtain ⟨r, top, -⟩ := tree.root
                rw [top]
                exact Option.some_ne_none r
            | some a =>
                obtain rfl := Option.some.inj is
                refine tree.placed h { done with fNode := none } a ?_ ?_
                · rw [frame.files, lookup_setFile client₄, if_pos rfl]
                · exact List.mem_append_right _ (List.mem_singleton_self a)
        have run : s.exec x (.fork h) = .ok (t, .ok) := by
          rw [head]
          simp only [if_pos same]
          rw [home, Option.elim_some, cloned]
          simp only [Except.bind]
          rw [show (u.setFile h { own with fHome := o }).derefNode (some old) = .ok v from left]
          simp only [moved]
        have grows' : Grows o s t := grows₄.frame (u := { t with filehash := v.filehash }) frame'
        refine intact.forked (h := h) (g := { done with fNode := o.or (some rootnode) }) run tree' all' grows'
          (frame'.groups.trans groups₄) (fun k => ?_) rfl ?_ inner (fun b is => ?_)
          (Eq.trans frame'.leaf (Eq.trans frame.leaf entries))
        · rw [look', look₄]
          by_cases here : k = h
          · rw [if_pos here, if_pos here]
            rfl
          · rw [if_neg here, if_neg here, if_neg here]
        · have at_ : ∀ b, o.or (some rootnode) = some b → t.nodes.lookup b ≠ none := fun b is => by
            refine tree'.placed h { done with fNode := o.or (some rootnode) } b ?_ ?_
            · rw [look', if_pos rfl]
              rfl
            · exact List.mem_append_left _ (Option.mem_toList.mpr is)
          cases o with
          | none =>
              obtain ⟨m, found⟩ := Option.ne_none_iff_exists'.mp (at_ rootnode rfl)
              exact ⟨rootnode, m, rfl, found, .inr (.inl rfl)⟩
          | some a =>
              obtain ⟨m, found⟩ := Option.ne_none_iff_exists'.mp (at_ a rfl)
              exact ⟨a, m, rfl, found, .inr (.inr rfl)⟩
        · exact List.mem_append_right _ (Option.mem_toList.mpr is)
      · have run : s.exec x (.fork h) = .ok (v, .ok) := by
          rw [head]
          simp only [if_neg same]
          rw [home, Option.elim_some, cloned]
          simp only [Except.bind]
          rw [show (u.setFile h { own with fHome := o }).derefNode (some old) = .ok v from left]
        refine intact.forked (g := done) run tree₄ all₄ grows₄ groups₄ look₄ rfl ?_ inner
          (fun b is => List.mem_append_right _ (Option.mem_toList.mpr is))
          (Eq.trans frame.leaf entries)
        have stands : Stands s { f with fHome := none } := by
          refine ⟨p, parent, at_, above, ?_⟩
          rcases spot with list | top | is
          · exact .inl list
          · exact .inr (.inl top)
          · exact absurd (at_.trans is.symm) same
        obtain ⟨q, m, at', found, spot'⟩ := stands.grows grows₄ fun b points => by
          refine tree₄.placed h done b client₄ ?_
          rw [File.ptrs, Option.toList_none, List.append_nil] at points
          exact List.mem_append_left _ points
        refine ⟨q, m, at', found, ?_⟩
        rcases spot' with list | top | is
        · exact .inl list
        · exact .inr (.inl top)
        · cases is

/-- **Every request that meets the condition goes through.** -/
theorem exec_spec (intact : Intact s) {label : Outcome × Action} (legal : Legal s label)
    (fits : Fits s label) : Shown s label (after s label.1 label.2) := by
  obtain ⟨x, act⟩ := label
  cases act with
  | connect h mArg => exact goes_connect intact x mArg legal.2.2.2
  | dup h mArg => exact goes_dup intact x legal.2.2.2.1 legal.2.2.2.2
  | open_ h name mArg => exact goes_open intact x legal fits
  | remove h name => exact goes_remove intact x name legal.2.2.2
  | fork h => exact goes_fork intact x legal fits
  | disconnect h => exact goes_disconnect intact x legal.2.2.2 fits

end Vsta.Env
