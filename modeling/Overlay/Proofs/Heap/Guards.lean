import Overlay.Proofs.Heap.Steps

/-!
# What steps keep

An operation is handed values, looks into them, and writes what it has found into cells.  A `Guard`
is a kind of values that is kept apart in this way: what such values hold is of the kind, and so are
the models found from their records.  A computation that starts with values of the kind takes steps
that write nothing else, and into no other cells, so it keeps whatever such steps keep.

* `Heap.Guard` : a kind of values, with what steps keep that write nothing else;
* `Heap.Guard.safe` : the values that are there; steps that write these are safe.
-/

namespace Overlay.Heap

/-- A kind of values, the values in use, and what is kept by steps that write values of the kind
only, and only into cells of the kind. -/
structure Guard (s : Schema) where
  /-- What is kept. -/
  Ok : Heap → Prop
  /-- The value is of the kind. -/
  Has : Heap → Value → Prop
  /-- These values may be in use. -/
  Uses : Heap → List Value → Prop
  /-- What values of the kind hold is of the kind. -/
  inside : ∀ {h}, Ok h → h.Sealed (Has h)
  /-- So is the model that is found from a record. -/
  wrapper : ∀ {h roots r m}, Ok h → Has h (.record r) → Uses h roots →
    h.wrapper? roots r = some m → Has h (.model m)
  /-- Values of the kind may be in use. -/
  uses : ∀ {h vs roots}, (∀ v ∈ vs, Has h v) → Uses h roots → Uses h (vs ++ roots)
  /-- New cells are of the kind. -/
  fresh : ∀ {h h' v}, Ok h → h.Grows h' → ¬ h.Holds v → h'.Holds v → Has h' v
  /-- A step keeps it. -/
  ok : ∀ {h h'}, Ok h → Move s (Has h) (Has h) h h' → Ok h'
  /-- Values of the kind stay of the kind. -/
  has : ∀ {h h' v}, h.Grows h' → Has h v → Has h' v
  /-- The values in use stay such values. -/
  stays : ∀ {h h' roots}, h.Grows h' → Uses h roots → Uses h' roots

namespace Guard

variable {s : Schema} (G : Guard s) {h h' h'' : Heap} {vs ws roots : List Value}

/-- The heap is in order, the values are of the kind, and so much is in use. -/
structure Sound (vs roots : List Value) (h : Heap) : Prop where
  /-- The heap is in order. -/
  ok : G.Ok h
  /-- The values are of the kind. -/
  there : ∀ v ∈ vs, G.Has h v
  /-- What is in use. -/
  uses : G.Uses h roots

/-- What was kept was kept from one heap to the other. -/
structure Keeps (h h' : Heap) : Prop where
  /-- The heap is in order. -/
  ok : G.Ok h'
  /-- No cell is gone. -/
  grows : h.Grows h'

variable {G}

namespace Keeps

theorem refl (ok : G.Ok h) : G.Keeps h h := ⟨ok, .refl h⟩

theorem trans (k : G.Keeps h h') (k' : G.Keeps h' h'') : G.Keeps h h'' :=
  ⟨k'.ok, k.grows.trans k'.grows⟩

theorem move (ok : G.Ok h) (move : Move s (G.Has h) (G.Has h) h h') :
    G.Keeps h h' :=
  ⟨G.ok ok move, move.grows⟩

end Keeps

namespace Sound

theorem keeps (sound : G.Sound vs roots h) (k : G.Keeps h h') : G.Sound vs roots h' :=
  ⟨k.ok, fun v hv => G.has k.grows (sound.there v hv), G.stays k.grows sound.uses⟩

theorem mono (sound : G.Sound vs roots h) (sub : ∀ w ∈ ws, w ∈ vs) : G.Sound ws roots h :=
  ⟨sound.ok, fun w hw => sound.there w (sub w hw), sound.uses⟩

theorem append (sound : G.Sound vs roots h) (hws : ∀ w ∈ ws, G.Has h w) :
    G.Sound (ws ++ vs) roots h :=
  ⟨sound.ok, fun v hv => (List.mem_append.1 hv).elim (hws v) (sound.there v), sound.uses⟩

end Sound

/-! ### What is there -/

/-- The values that are there, if this is wanted.  Steps that write these are safe, and leave no
dangling reference. -/
def safe (s : Schema) (wanted : Prop) (before : Heap) : Guard s where
  Ok h := before.Steps s wanted h ∧ (wanted → h.Closed)
  Has h v := wanted → h.Holds v
  Uses h roots := wanted → ∀ v ∈ roots, h.Holds v
  inside ok := ⟨fun hv _ => hv _, fun hv hw w => ok.2 w _ (hv w) _ hw⟩
  wrapper ok _ uses hm w := holds_of_wrapper? (ok.2 w) (uses w) hm
  uses has uses w v hv := (List.mem_append.1 hv).elim (fun hv => has v hv w) (uses w v)
  fresh _ _ _ hv _ := hv
  ok ok move :=
    have step := move.step fun _ hv => hv
    ⟨ok.1.tail step, fun w => step.closed w (ok.2 w)⟩
  has grows hv w := (hv w).grows grows
  stays grows uses w v hv := (uses w v hv).grows grows

end Guard

end Overlay.Heap
