import CServer.PageCount.Runs

/-!
# Requests that end

The node of a client comes from the pool of its first request, and the memory of a pool is released
with its request. The tree outlives it: the second request searches from a node that is gone.
-/
namespace CServer.PageCount

open RedBlack RedBlack.ColorTree

/-- A request of a client, with the address at which its pool gives memory for a node. -/
structure PageRequest where
  sAddr : UInt32
  z : Addr

/-- The handler, and then the end of the request, at which the memory of its pool is released. -/
def serveRequest (rebalance : Addr → NgxRbtree → NgxRbtree) (nil : Addr) (turns : ℕ) (s : Server)
    (r : PageRequest) : Except Fault Server := do
  let (s, _) ← ngxHttpCountModuleHandler rebalance turns nil r.sAddr r.z s
  .ok { s with tree := ⟨s.tree.heap.free r.z, s.tree.root⟩ }

/-- No request of the list reads or writes a node that is not there, or writes a text that leaves
its array. -/
def Safe (rebalance : Addr → NgxRbtree → NgxRbtree) (nil : Addr) : Server → List PageRequest → Prop
  | _, [] => True
  | s, r :: rest =>
    (∀ turns fault, serveRequest rebalance nil turns s r = .error fault → fault = .endless) ∧
      ∀ s', Returns (fun turns => serveRequest rebalance nil turns s r) s' →
        Safe rebalance nil s' rest

variable {rebalance : Addr → NgxRbtree → NgxRbtree} {nil : Addr} {r : PageRequest} {s : Server}
  {rest : List PageRequest}

/-- The tree of the first client. -/
def firstTree (r : PageRequest) : ColorTree (Cell PageEntry) :=
  node .black leaf ⟨r.z, ⟨r.sAddr.toNat, 1⟩⟩ leaf

theorem length_pageText_first (r : PageRequest) :
    (pageText ((firstTree r).toList.map Cell.value)).length < htmlSize := by
  have hline : (line ⟨r.sAddr.toNat, 1⟩).length < 128 := length_line (by simp) (by simp)
  have hlist : (firstTree r).toList.map Cell.value = [⟨r.sAddr.toNat, 1⟩] := rfl
  have hheader : header.length = 28 := rfl
  have hfooter : footer.length = 5 := rfl
  rw [hlist, pageText, List.map_singleton, List.flatten_singleton, List.length_append,
    List.length_append, htmlSize]
  omega

/-- The search of the first request ends at the sentinel, and its node becomes the root. -/
theorem countInTree_first (rebalance : Addr → NgxRbtree → NgxRbtree)
    (hnil : r.z ≠ nil) (hnull : r.z ≠ null) :
    ∃ t, Shows nil t (firstTree r) ∧ ∀ turns,
      countInTree rebalance turns nil r.sAddr.toNat r.z (start nil).tree =
        if turns = 0 then .error .endless else .ok t := by
  have hfree : (start nil).tree.heap r.z = none := by
    show (ngxRbtreeInit nil).heap r.z = none
    rw [ngxRbtreeInit]
    simp only [Function.update_of_ne hnil]
  have hunlinked := (Shows.start nil).unlinked (k := r.sAddr.toNat) hfree
  obtain ⟨n, hsentinel⟩ := hunlinked.sentinel
  have hz : withNode (start nil).tree.heap r.z r.sAddr.toNat r.z =
      some ⟨null, null, null, .black, ⟨r.sAddr.toNat, 1⟩⟩ := Function.update_self _ _ _
  obtain ⟨heap, hok, hself, hother⟩ := Heap.modify_spec hz
    (fun n => ⟨nil, nil, null, .black, n.value⟩)
  refine ⟨⟨heap, r.z⟩, ⟨⟨⟨hself, trivial, trivial⟩, List.nodup_singleton r.z, ?_, ?_⟩, rfl, n,
    (hother nil hnil.symm).trans hsentinel⟩, fun turns => ?_⟩
  · exact fun hmem => hnil (List.mem_singleton.mp hmem).symm
  · exact fun hmem => hnull (List.mem_singleton.mp hmem).symm
  · cases turns with
    | zero => rfl
    | succ turns =>
      have hsearch : ngxRbtreeSearch (turns + 1) nil (start nil).tree r.sAddr.toNat = .ok nil :=
        if_neg (fun hne => hne rfl)
      rw [countInTree, hsearch, ok_bind, if_pos rfl, ngxRbtreeInsert]
      simp only [hok, ok_bind]
      exact (if_pos rfl).trans (if_neg (Nat.succ_ne_zero turns)).symm

/-- What the first request leaves: a root whose memory is gone. -/
theorem serveRequest_first (rebalance : Addr → NgxRbtree → NgxRbtree)
    (hnil : r.z ≠ nil) (hnull : r.z ≠ null) :
    ∃ s', s'.tree.root = r.z ∧ s'.tree.heap r.z = none ∧
      ∀ turns, serveRequest rebalance nil turns (start nil) r =
        if turns < 2 then .error .endless else .ok s' := by
  obtain ⟨t, hshows, hcount⟩ := countInTree_first rebalance hnil hnull
  refine ⟨⟨countInTable (fun _ => ⟨0, 0⟩) r.sAddr, ⟨t.heap.free r.z, t.root⟩⟩, hshows.root,
    Function.update_self _ _ _, fun turns => ?_⟩
  have hlines : ∀ x ∈ (firstTree r).toList, (line x.value).length < 128 := by
    intro x hx
    obtain rfl := List.mem_singleton.mp hx
    exact length_line (by simp) (by simp)
  rw [serveRequest, ngxHttpCountModuleHandler, hcount]
  obtain _ | _ | turns := turns
  · rfl
  · -- the traversal looks for a child of the root
    have hroot := Rep.read (K := []) hshows.rep
    have htraversal : ∀ html, ngxRbtreeTraversal nil t.heap ngxHttpCountRbtreeIterator 1 t.root
        html = .error .endless := by
      intro html
      rw [hshows.root]
      show ngxRbtreeTraversal nil t.heap ngxHttpCountRbtreeIterator (0 + 1) r.z html = _
      rw [ngxRbtreeTraversal, if_pos hnil, hroot.2.2, ok_bind]
      rfl
    have hencode : ngxEncodeHttpPageRb 1 nil t = .error .endless := by
      show (ngxRbtreeTraversal nil t.heap ngxHttpCountRbtreeIterator 1 t.root header >>= _) = _
      rw [htraversal, error_bind]
    rw [if_neg (Nat.succ_ne_zero 0), ok_bind, hencode]
    rfl
  · have hencode := hshows.encode hlines
      (show 1 < turns + 2 from Nat.lt_of_lt_of_le (Nat.lt_succ_self 1) (Nat.le_add_left 2 turns))
    rw [sprintf, if_pos (length_pageText_first r)] at hencode
    rw [if_neg (by omega), ok_bind, hencode]
    rfl

theorem returns_first (rebalance : Addr → NgxRbtree → NgxRbtree)
    (hnil : r.z ≠ nil) (hnull : r.z ≠ null) :
    ∃ s', s'.tree.root = r.z ∧ s'.tree.heap r.z = none ∧
      Returns (fun turns => serveRequest rebalance nil turns (start nil) r) s' := by
  obtain ⟨s', hroot, hgone, hserve⟩ := serveRequest_first rebalance hnil hnull
  exact ⟨s', hroot, hgone, 2, fun turns hturns => (hserve turns).trans (if_neg (by omega))⟩

/-- A search from a root that is gone reads it. -/
theorem serveRequest_gone (hroot : s.tree.root ≠ nil) (hgone : s.tree.heap s.tree.root = none) :
    serveRequest rebalance nil 1 s r = .error .notAllocated := by
  have hsearch : ngxRbtreeSearch 1 nil s.tree r.sAddr.toNat = .error .notAllocated := by
    show searchFrom nil s.tree.heap r.sAddr.toNat (0 + 1) s.tree.root = _
    rw [searchFrom, if_pos hroot, Heap.node, hgone]
    rfl
  rw [serveRequest, ngxHttpCountModuleHandler, countInTree, hsearch]
  rfl

/-- The handlers of the requests touch only memory that is theirs exactly when there is no second
request. -/
theorem requests_safe_iff (rebalance : Addr → NgxRbtree → NgxRbtree) (nil : Addr)
    (requests : List PageRequest) (hz : ∀ r ∈ requests, r.z ≠ nil ∧ r.z ≠ null) :
    Safe rebalance nil (start nil) requests ↔ requests.length ≤ 1 := by
  obtain _ | ⟨r, _ | ⟨second, rest⟩⟩ := requests
  · exact iff_of_true trivial (Nat.zero_le 1)
  · obtain ⟨hnil, hnull⟩ := hz r List.mem_cons_self
    refine iff_of_true ⟨fun turns fault herror => ?_, fun _ _ => trivial⟩ (Nat.le_refl 1)
    obtain ⟨s', -, -, hserve⟩ := serveRequest_first rebalance hnil hnull
    rw [hserve] at herror
    split_ifs at herror
    exact (Except.error.inj herror).symm
  · obtain ⟨hnil, hnull⟩ := hz r List.mem_cons_self
    obtain ⟨s', hroot, hgone, hreturns⟩ := returns_first rebalance hnil hnull
    refine iff_of_false (fun hsafe => ?_) (by simp)
    have hfault := (hsafe.2 s' hreturns).1 1 .notAllocated
      (serveRequest_gone (hroot.symm ▸ hnil) (hroot.symm ▸ hgone))
    exact absurd hfault (by decide)

/-- One request. -/
theorem requests_safe_single : Safe keep 100 (start 100) [⟨1, 200⟩] :=
  (requests_safe_iff keep 100 [⟨1, 200⟩] (by decide)).mpr (by decide)

/-- The second request of a client reads the node that the first one has taken along. -/
theorem second_request_reads_released : (∃ s, Returns (fun turns =>
      serveRequest keep 100 turns (start 100) ⟨1, 200⟩) s ∧
    serveRequest keep 100 1 s ⟨1, 300⟩ = .error .notAllocated) ∧
    ¬Safe keep 100 (start 100) [⟨1, 200⟩, ⟨1, 300⟩] := by
  have hnil : (⟨1, 200⟩ : PageRequest).z ≠ 100 := by decide
  obtain ⟨s, hroot, hgone, hreturns⟩ := returns_first keep hnil (by decide)
  have hfault : serveRequest keep 100 1 s ⟨1, 300⟩ = .error .notAllocated :=
    serveRequest_gone (by rw [hroot]; decide) (by rw [hroot]; exact hgone)
  exact ⟨⟨s, hreturns, hfault⟩, fun hsafe =>
    absurd ((hsafe.2 s hreturns).1 1 .notAllocated hfault) (by decide)⟩

end CServer.PageCount
