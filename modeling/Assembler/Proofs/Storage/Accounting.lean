import Assembler.Proofs.Storage.Allocation

/-! What the allocator keeps through every request. Pointer, views and index of names move together:
a request records one view, moves the pointer behind it and enters its name with its position, or
it fails and changes nothing. -/

namespace Assembler

namespace Memory

def granted (m : Memory) : List Request → List View
  | [] => []
  | r :: rest =>
    match m.answer r with
    | .ok _ => m.recorded r :: (m.serve r).granted rest
    | .error _ => (m.serve r).granted rest

theorem answer_eq_alreadyAllocated_iff {m : Memory} (h : m.Indexes) (r : Request) :
    m.answer r = .error (.alreadyAllocated r.name) ↔ r.name ∈ m.views.map View.name := by
  rw [← h.contains_iff]
  rcases m.request_cases r with
    ⟨hname, hanswer, _⟩ | ⟨hname, _, hanswer, _⟩ | ⟨hname, _, _, _, ⟨given, hanswer⟩, _⟩
  · simp [hname, hanswer]
  · simp [hname, hanswer]
  · simp [hname, hanswer]

theorem not_noRoom {m : Memory} {v : View} {bytes : Nat} (hbytes : v.footprint? = some bytes)
    (hroom : m.next + bytes < addressSpace) : ¬ m.NoRoom v := by
  rintro (hnone | ⟨more, hmore, hover⟩)
  · rw [hnone] at hbytes
    cases hbytes
  · cases hbytes.symm.trans hmore
    exact Nat.not_le_of_lt hroom hover

theorem answer_eq_addressOverflow_iff {m : Memory} (h : m.Indexes) (r : Request) :
    m.answer r = .error (.addressOverflow r.name) ↔
      r.name ∉ m.views.map View.name ∧ m.NoRoom (m.recorded r) := by
  rw [← h.contains_iff]
  rcases m.request_cases r with
    ⟨hname, hanswer, _⟩ | ⟨hname, hover, hanswer, _⟩ |
      ⟨hname, bytes, hbytes, hroom, ⟨given, hanswer⟩, _⟩
  · simp [hname, hanswer]
  · simp [hname, hanswer, hover]
  · simp [hname, hanswer, not_noRoom hbytes hroom]

theorem commit_of_error {m : Memory} {r : Request} {fault : Fault}
    (h : m.answer r = .error fault) :
    m.commit r = m ∧ (fault = .alreadyAllocated r.name ∨ fault = .addressOverflow r.name) := by
  rcases m.request_cases r with
    ⟨_, hanswer, hsame⟩ | ⟨_, _, hanswer, hsame⟩ | ⟨_, _, _, _, ⟨given, hanswer⟩, _⟩
  · exact ⟨hsame, Or.inl (Except.error.inj (h.symm.trans hanswer))⟩
  · exact ⟨hsame, Or.inr (Except.error.inj (h.symm.trans hanswer))⟩
  · cases h.symm.trans hanswer

theorem serve_below (m : Memory) (r : Request) (h : m.next < addressSpace) :
    (m.serve r).next < addressSpace := by
  rw [serve_eq_commit]
  rcases m.request_cases r with
    ⟨_, _, hsame⟩ | ⟨_, _, _, hsame⟩ | ⟨_, bytes, _, hroom, _, hnext⟩
  · rw [hsame]
    exact h
  · rw [hsame]
    exact h
  · rw [hnext]
    exact hroom

/-- A request touches nothing but the pointer, the views and the index. -/
theorem serve_keeps {α : Type} {f : Memory → α}
    (hf : ∀ m name view bytes, f (grow m name view bytes) = f m) (m : Memory) (r : Request) :
    f (m.serve r) = f m := by
  rw [serve_eq_commit]
  rcases m.request_cases r with
    ⟨_, _, hsame⟩ | ⟨_, _, _, hsame⟩ | ⟨_, _, _, _, _, hnext⟩
  · rw [hsame]
  · rw [hsame]
  · rw [hnext, hf]

theorem run_keeps {α : Type} {f : Memory → α}
    (hf : ∀ m name view bytes, f (grow m name view bytes) = f m) (m : Memory)
    (requests : List Request) : f (m.run requests) = f m :=
  run_preserves (P := fun after => f after = f m)
    (fun after r h => (serve_keeps hf after r).trans h) rfl requests

theorem run_base (m : Memory) (requests : List Request) : (m.run requests).base = m.base :=
  run_keeps (f := Memory.base) (fun _ _ _ _ => rfl) m requests

theorem run_views (m : Memory) (requests : List Request) :
    (m.run requests).views = m.views ++ m.granted requests := by
  induction requests generalizing m with
  | nil => exact (List.append_nil _).symm
  | cons r rest ih =>
    have hrest : (m.run (r :: rest)).views = (m.serve r).views ++ (m.serve r).granted rest :=
      ih (m.serve r)
    rw [hrest, granted, serve_eq_commit]
    rcases m.request_cases r with
      ⟨_, hanswer, hsame⟩ | ⟨_, _, hanswer, hsame⟩ | ⟨_, _, _, _, ⟨given, hanswer⟩, hnext⟩
    · simp only [hanswer, hsame]
    · simp only [hanswer, hsame]
    · simp only [hanswer, hnext, grow, List.append_assoc, List.singleton_append]

end Memory

theorem Tiles.stop_eq {start stop : Nat} {views : List View} (h : Tiles start views stop) :
    stop = start + (views.map View.footprint).sum := by
  induction views generalizing start with
  | nil =>
    cases h
    rfl
  | cons v rest ih =>
    obtain ⟨_, bytes, hbytes, hrest⟩ := h
    rw [ih hrest, List.map_cons, List.sum_cons, View.footprint_of_footprint? hbytes,
      Nat.add_assoc]

theorem Memory.Invariant.used_eq {m : Memory} (h : m.Invariant) :
    m.used = (m.views.map View.footprint).sum := by
  have hstop := h.tiles.stop_eq
  rw [used]
  omega

/-- After any requests, failing ones among them, the views of those that succeeded lie side by side
from the base to the pointer, which stays in the address space. The index leads each name to the
position of its own view, and there the view is found. The next request fails with a name that is
bound, or else for want of room, and then pointer, views and index are as they were; once it has
changed the memory it does not fail. -/
theorem Memory.requests_account (s : Settings) (hbase : s.memoryBase < addressSpace)
    (requests : List Request) :
    let m := (ofSettings s).run requests
    m.views = (ofSettings s).granted requests ∧
    Tiles s.memoryBase m.views m.next ∧ m.next < addressSpace ∧
    m.used = (m.views.map View.footprint).sum ∧
    (m.views.map View.name).Nodup ∧
    (∀ (name : String) (i : Nat), m.index.lookup name = some i ↔
      ∃ v, m.views[i]? = some v ∧ v.name = name) ∧
    (∀ name v, m.find? name = some v ↔ v ∈ m.views ∧ v.name = name) ∧
    (∀ name, m.contains name = true ↔ name ∈ m.views.map View.name) ∧
    ∀ r : Request,
      m.serve r = m.commit r ∧
      (m.answer r = .error (.alreadyAllocated r.name) ↔ r.name ∈ m.views.map View.name) ∧
      (m.answer r = .error (.addressOverflow r.name) ↔
        r.name ∉ m.views.map View.name ∧ m.NoRoom (m.recorded r)) ∧
      (∀ fault, m.answer r = .error fault → m.commit r = m ∧
        (fault = .alreadyAllocated r.name ∨ fault = .addressOverflow r.name)) ∧
      (m.commit r ≠ m → ∃ given, m.answer r = .ok given) := by
  intro m
  have hinv : m.Invariant := run_preserves_invariant (ofSettings_invariant s) requests
  have hbelow : m.next < addressSpace :=
    run_preserves (P := fun m => m.next < addressSpace) serve_below hbase requests
  have htiles : Tiles s.memoryBase m.views m.next := by
    have hfirst : m.base = s.memoryBase := run_base _ requests
    rw [← hfirst]
    exact hinv.tiles
  refine ⟨(ofSettings s).run_views requests, htiles, hbelow, hinv.used_eq, hinv.indexes.nodup,
    hinv.indexes, hinv.indexes.find?_eq_some_iff, hinv.indexes.contains_iff, ?_⟩
  intro r
  refine ⟨m.serve_eq_commit r, answer_eq_alreadyAllocated_iff hinv.indexes r,
    answer_eq_addressOverflow_iff hinv.indexes r, fun _ => commit_of_error, ?_⟩
  intro hchanged
  cases hanswer : m.answer r with
  | error fault => exact absurd (commit_of_error hanswer).1 hchanged
  | ok given => exact ⟨given, rfl⟩

/-- A hundred bytes below the end of the address space: a cell and a grid fit, the next cell does
not, a grid without elements still does, and a bound name is refused. -/
theorem Memory.requests_account_near_the_end :
    let s : Settings := { memoryBase := addressSpace - 100 }
    let requests : List Request :=
      [.cell "a", .grid "b" [2], .cell "c", .view "z" 8 [0, 5], .grid "a" []]
    let m := (ofSettings s).run requests
    s.memoryBase < addressSpace ∧ m.views.map View.name = ["a", "b", "z"] ∧
    m.next + 4 = addressSpace ∧ m.views = (ofSettings s).granted requests ∧
    m.used = (m.views.map View.footprint).sum ∧
    m.index.lookup "z" = some 2 ∧ m.index.lookup "c" = none ∧
    m.answer (.cell "d") = .error (.addressOverflow "d") := by
  intro s requests m
  have hbase : s.memoryBase < addressSpace := by decide
  obtain ⟨hviews, _, _, hused, _, _, _, _, hrequest⟩ := requests_account s hbase requests
  obtain ⟨_, _, hoverflow, _, _⟩ := hrequest (.cell "d")
  refine ⟨hbase, by decide +kernel, by decide +kernel, hviews, hused, by decide +kernel,
    by decide +kernel, hoverflow.mpr ?_⟩
  exact ⟨by decide +kernel, Or.inr ⟨32, by decide +kernel, by decide +kernel⟩⟩

end Assembler
