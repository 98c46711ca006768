import Qumios.VirtualChannel.Channel

/-! Who is paired with whom.

A `View` is what the tables say about pairing, and `Effect` what an operation can do to
it. As long as no descriptor is given out again while another endpoint still has it in
its peer field, the peers refer to each other and bytes go to the partner alone. Nothing
in the code sees to that: a descriptor is free for the next one to come as soon as its
endpoint is destroyed, and the partner keeps it. -/
namespace Qumios.VirtualChannel
open Run List Function

/-! ### The view -/

/-- What the tables say about pairing: servers that are up, and for nodes and clients the
descriptor and the peer. -/
@[ext]
structure View where
  up : Nat → Bool
  nodeFd : Nat → Nat → Nat
  nodePeer : Nat → Nat → Nat
  clientFd : Nat → Nat
  clientPeer : Nat → Nat

def State.view (s : State) : View where
  up i := (s.server i).fd != 0
  nodeFd i j := (s.listen i j).fd
  nodePeer i j := (s.listen i j).clientFd
  clientFd k := (s.client k).fd
  clientPeer k := (s.client k).clientFd

def at₂ {α : Type} (f : Nat → Nat → α) (i j : Nat) (x : α) : Nat → Nat → α :=
  fun k l => if k = i ∧ l = j then x else f k l

section At
variable {α : Type} (f : Nat → Nat → α) (i j : Nat)

@[simp] theorem at₂_self : at₂ f i j (f i j) = f := by
  funext k l
  by_cases h : k = i ∧ l = j
  · simp [at₂, h]
  · simp only [at₂, if_neg h]

@[simp] theorem at₂_at₂ (x y : α) : at₂ (at₂ f i j x) i j y = at₂ f i j y := by
  funext k l
  by_cases h : k = i ∧ l = j
  · simp [at₂, h]
  · simp only [at₂, if_neg h]

end At

section Views
variable (s : State)

theorem view_setServer (i : Nat) (server : Server) :
    (s.setServer i server).view = { s.view with up := Function.update s.view.up i (server.fd != 0) } := by
  ext k
  · simp only [State.view, State.setServer, update_apply]
    by_cases h : k = i <;> simp [h]
  all_goals rfl

theorem view_setListen (i j : Nat) (node : Node) :
    (s.setListen i j node).view =
      { s.view with
        nodeFd := at₂ s.view.nodeFd i j node.fd
        nodePeer := at₂ s.view.nodePeer i j node.clientFd } := by
  ext k l
  · rfl
  · simp only [State.view, State.setListen, at₂]
    by_cases h : k = i ∧ l = j <;> simp [h]
  · simp only [State.view, State.setListen, at₂]
    by_cases h : k = i ∧ l = j <;> simp [h]
  all_goals rfl

theorem view_setClient (k : Nat) (node : Node) :
    (s.setClient k node).view =
      { s.view with
        clientFd := Function.update s.view.clientFd k node.fd
        clientPeer := Function.update s.view.clientPeer k node.clientFd } := by
  ext l
  · rfl
  · rfl
  · rfl
  · simp only [State.view, State.setClient, update_apply]
    by_cases h : l = k <;> simp [h]
  · simp only [State.view, State.setClient, update_apply]
    by_cases h : l = k <;> simp [h]

end Views

/-! ### The invariant -/

section Invariant
variable (cfg : Config)

def listenFd (i j : Nat) : Nat := (i + 1) * 256 + (j + 1)

structure Inv (v : View) : Prop where
  /-- A client in use has the descriptor of its place; the others are cleared. -/
  client : ∀ k, (v.clientFd k = 0 ∧ v.clientPeer k = 0) ∨ (k < cfg.clientNum ∧ v.clientFd k = k + 1)
  node : ∀ i j, v.nodeFd i j = 0 ∨ v.nodeFd i j = listenFd i j
  /-- What is said of a node is said of one in the table of a server that is up. -/
  inside : ∀ i j, v.nodeFd i j ≠ 0 ∨ v.nodePeer i j ≠ 0 → v.up i = true ∧ i < cfg.serverNum ∧ j < cfg.listenNum
  /-- No two nodes have the same peer. -/
  once : ∀ i j i' j', v.nodePeer i j ≠ 0 → v.nodePeer i' j' = v.nodePeer i j → i' = i ∧ j' = j
  /-- A client and a listen node refer to each other, or not at all. -/
  both : ∀ k i j, v.clientFd k ≠ 0 → v.nodeFd i j ≠ 0 → (v.clientPeer k = v.nodeFd i j ↔ v.nodePeer i j = v.clientFd k)

variable {cfg}

variable {k i j fd : Nat}

theorem Inv.client_fd {v : View} (h : Inv cfg v) (hk : v.clientFd k ≠ 0) :
    k < cfg.clientNum ∧ v.clientFd k = k + 1 := (h.client k).resolve_left fun h => hk h.1

theorem Inv.node_fd {v : View} (h : Inv cfg v) (hn : v.nodeFd i j ≠ 0) : v.nodeFd i j = listenFd i j :=
  (h.node i j).resolve_left hn

theorem listenFd_inj {cfg : Config} {i' j' : Nat} (hj : j < cfg.listenNum) (hj' : j' < cfg.listenNum)
    (h : listenFd i j = listenFd i' j') : i = i' ∧ j = j' := by
  have := cfg.listens
  simp only [listenFd] at h
  omega

theorem clientGet_eq_some {s : State} (h : Inv cfg s.view) :
    clientGet cfg s fd = some k ↔ s.view.clientFd k = fd ∧ fd ≠ 0 := by
  rw [clientGet]
  constructor
  · intro hg
    split at hg
    · rename_i hc
      cases hg
      exact ⟨(h.client_fd hc.2.2).2.trans (Nat.succ_pred hc.2.1), hc.2.1⟩
    · cases hg
  · intro ⟨hk, hpos⟩
    have hlive : s.view.clientFd k ≠ 0 := by rwa [hk]
    obtain ⟨hlt, hfd⟩ := h.client_fd hlive
    have hplace : fd - 1 = k := by omega
    rw [if_pos ⟨by omega, hpos, by rw [hplace]; exact hlive⟩, hplace]

theorem listenFd_div (cfg : Config) (hj : j < cfg.listenNum) :
    listenFd i j / 256 = i + 1 ∧ listenFd i j % 256 = j + 1 := by
  have := cfg.listens
  simp only [listenFd]
  omega

theorem listenGet_eq_some {s : State} (h : Inv cfg s.view) :
    listenGet cfg s fd = some (i, j) ↔ s.view.nodeFd i j = fd ∧ fd ≠ 0 := by
  rw [listenGet]
  constructor
  · intro hg
    split at hg
    · rename_i hc
      cases hg
      have hfd : s.view.nodeFd (fd / 256 - 1) (fd % 256 - 1) = _ := h.node_fd hc.2.2.2
      rw [hfd, listenFd]
      omega
    · cases hg
  · intro ⟨hn, hpos⟩
    have hlive : s.view.nodeFd i j ≠ 0 := by rwa [hn]
    obtain ⟨hup, hi, hj⟩ := h.inside i j (.inl hlive)
    obtain ⟨hdiv, hmod⟩ := listenFd_div cfg (i := i) hj
    rw [← h.node_fd hlive, hn] at hdiv hmod
    have hserver : (s.server i).fd ≠ 0 := bne_iff_ne.mp hup
    rw [hdiv, hmod, Nat.add_sub_cancel, Nat.add_sub_cancel,
      if_pos ⟨⟨hi, Nat.succ_ne_zero _⟩, ⟨hj, Nat.succ_ne_zero _⟩, hserver, hlive⟩]

end Invariant

/-! ### What an operation does -/

/-- The pairs, as the operations make and break them: `accept` pairs the client of the request
with the new node, and who is destroyed is paired no longer. -/
def pairStep (pairs : List (Nat × Nat)) : Event × Out → List (Nat × Nat)
  | (.accept _, .accepted fd client) => (client, fd) :: pairs
  | (.destroy fd, .ok) =>
    pairs.filter fun p => p.1 ≠ fd ∧ p.2 ≠ fd ∧ ¬ (fd % 256 = 0 ∧ p.2 / 256 = fd / 256)
  | _ => pairs

def pairs (trace : List (Event × Out)) : List (Nat × Nat) := trace.foldl pairStep []

/-- The peer of an endpoint is not one of the past: a descriptor that is given out is in no
peer field any more, and a client asks for a node when none has been asked for it. -/
def Fine (cfg : Config) (s : State) : Event → Prop
  | .clientCreate _ _ =>
    ∀ k ∈ clientFdNew cfg s, ∀ i < cfg.serverNum, ∀ j < cfg.listenNum, (s.listen i j).clientFd ≠ k + 1
  | .connect fd _ _ => ∀ i < cfg.serverNum, ∀ j < cfg.listenNum, (s.listen i j).clientFd ≠ fd
  | .accept fd =>
    ∀ i ∈ serverGet cfg s fd, ∀ j ∈ acceptSlot cfg s i, ∀ k < cfg.clientNum, (s.client k).clientFd ≠ fd + (j + 1)
  | _ => True

instance (cfg : Config) (s : State) : ∀ e, Decidable (Fine cfg s e)
  | .clientCreate _ _ => inferInstanceAs (Decidable (∀ k ∈ clientFdNew cfg s, ∀ i < cfg.serverNum,
      ∀ j < cfg.listenNum, (s.listen i j).clientFd ≠ k + 1))
  | .connect fd _ _ => inferInstanceAs (Decidable (∀ i < cfg.serverNum, ∀ j < cfg.listenNum, (s.listen i j).clientFd ≠ fd))
  | .accept fd => inferInstanceAs (Decidable (∀ i ∈ serverGet cfg s fd, ∀ j ∈ acceptSlot cfg s i,
      ∀ k < cfg.clientNum, (s.client k).clientFd ≠ fd + (j + 1)))
  | .serverCreate .. => isTrue trivial
  | .write .. => isTrue trivial
  | .destroy _ => isTrue trivial

/-- What an operation can do to the view. -/
inductive Effect (cfg : Config) (v : View) : Event → Out → View → Prop
  | same {e : Event} {o : Out} (h : ∀ pairs, pairStep pairs (e, o) = pairs) : Effect cfg v e o v
  | serverCreate {e : Event} {o : Out} (i : Nat) (h : ∀ pairs, pairStep pairs (e, o) = pairs) :
      Effect cfg v e o { v with up := Function.update v.up i true }
  | clientCreate {e : Event} {o : Out} (k : Nat) (h : ∀ pairs, pairStep pairs (e, o) = pairs)
      (hk : k < cfg.clientNum) (hfree : v.clientFd k = 0)
      (hfresh : ∀ i < cfg.serverNum, ∀ j < cfg.listenNum, v.nodePeer i j ≠ k + 1) :
      Effect cfg v e o { v with clientFd := Function.update v.clientFd k (k + 1) }
  | request {e : Event} {o : Out} (i j fd : Nat) (h : ∀ pairs, pairStep pairs (e, o) = pairs)
      (hi : i < cfg.serverNum) (hj : j < cfg.listenNum) (hup : v.up i = true) (hfree : v.nodeFd i j = 0)
      (hfresh : ∀ i < cfg.serverNum, ∀ j < cfg.listenNum, v.nodePeer i j ≠ fd) :
      Effect cfg v e o { v with nodePeer := at₂ v.nodePeer i j fd }
  | refuse {e : Event} {o : Out} (i j : Nat) (h : ∀ pairs, pairStep pairs (e, o) = pairs)
      (hi : i < cfg.serverNum) (hj : j < cfg.listenNum) (hup : v.up i = true) (hfree : v.nodeFd i j = 0)
      (hfresh : ∀ k < cfg.clientNum, v.clientPeer k ≠ listenFd i j)
      (hdead : ∀ k, v.clientFd k ≠ 0 → v.clientFd k ≠ v.nodePeer i j) :
      Effect cfg v e o { v with nodeFd := at₂ v.nodeFd i j (listenFd i j) }
  | accept {fd : Nat} (i j k : Nat) (hi : i < cfg.serverNum) (hj : j < cfg.listenNum) (hup : v.up i = true)
      (hfree : v.nodeFd i j = 0) (hfresh : ∀ k < cfg.clientNum, v.clientPeer k ≠ listenFd i j)
      (hk : v.clientFd k = v.nodePeer i j) (hpos : v.nodePeer i j ≠ 0) :
      Effect cfg v (.accept fd) (.accepted (listenFd i j) (v.nodePeer i j))
        { v with
          nodeFd := at₂ v.nodeFd i j (listenFd i j)
          clientPeer := Function.update v.clientPeer k (listenFd i j) }
  | clientDestroy (k : Nat) (hk : v.clientFd k ≠ 0) :
      Effect cfg v (.destroy (v.clientFd k)) .ok
        { v with clientFd := Function.update v.clientFd k 0, clientPeer := Function.update v.clientPeer k 0 }
  | listenDestroy (i j : Nat) (hn : v.nodeFd i j ≠ 0) :
      Effect cfg v (.destroy (v.nodeFd i j)) .ok
        { v with nodeFd := at₂ v.nodeFd i j 0, nodePeer := at₂ v.nodePeer i j 0 }
  | serverDestroy (i : Nat) (hi : i < cfg.serverNum) :
      Effect cfg v (.destroy ((i + 1) * 256)) .ok
        { v with
          up := Function.update v.up i false
          nodeFd := Function.update v.nodeFd i fun _ => 0
          nodePeer := Function.update v.nodePeer i fun _ => 0 }

section Steps
variable {cfg : Config} {s : State}

variable {i j : Nat}

theorem first_eq_some {num : Nat} {p : Nat → Bool} (h : first num p = some i) : i < num ∧ p i = true :=
  ⟨mem_range.mp (mem_of_find?_eq_some h), find?_some h⟩

theorem serverCreate_effect (host : Option String) (port : Int) (rdSize wrSize : Nat) :
    Effect cfg s.view (.serverCreate host port rdSize wrSize) (serverCreate cfg s host port rdSize wrSize).2
      (serverCreate cfg s host port rdSize wrSize).1.view := by
  rw [serverCreate]
  split
  · exact .same fun _ => rfl
  · split
    · exact .same fun _ => rfl
    · split
      · exact .same fun _ => rfl
      · rename_i i _
        rw [view_setServer]
        have hfd : ((i + 1) * 256 != 0) = true := bne_iff_ne.mpr (by omega)
        exact .serverCreate i fun _ => rfl

theorem clientCreate_effect (rdSize wrSize : Nat) (hf : Fine cfg s (.clientCreate rdSize wrSize)) :
    Effect cfg s.view (.clientCreate rdSize wrSize) (clientCreate cfg s rdSize wrSize).2
      (clientCreate cfg s rdSize wrSize).1.view := by
  rw [clientCreate]
  split
  · exact .same fun _ => rfl
  · split
    · exact .same fun _ => rfl
    · rename_i k hk
      obtain ⟨hlt, hfree⟩ := first_eq_some hk
      rw [view_setClient]
      have hpeer : Function.update s.view.clientPeer k (s.client k).clientFd = s.view.clientPeer :=
        update_eq_self k _
      simp only [hpeer]
      exact .clientCreate k (fun _ => rfl) hlt (beq_iff_eq.mp hfree) (hf k hk)

theorem connect_effect (fd : Nat) (host : Option String) (port : Int) (hf : Fine cfg s (.connect fd host port)) :
    Effect cfg s.view (.connect fd host port) (connect cfg s fd host port).2 (connect cfg s fd host port).1.view := by
  rw [connect]
  split
  · exact .same fun _ => rfl
  · split
    · exact .same fun _ => rfl
    · rename_i i hfind
      split
      · exact .same fun _ => rfl
      · rename_i j hslot
        obtain ⟨hi, hserver⟩ := first_eq_some hfind
        obtain ⟨hj, hfree⟩ := first_eq_some hslot
        simp only [Bool.and_eq_true, beq_iff_eq] at hserver hfree
        have hview : (s.setListen i j { s.listen i j with clientFd := fd }).view =
            { s.view with nodePeer := at₂ s.view.nodePeer i j fd } := by
          rw [view_setListen]
          exact View.ext rfl (at₂_self s.view.nodeFd i j) rfl rfl rfl
        dsimp only
        split
        · rw [hview]
          exact .request i j fd (fun _ => rfl) hi hj hserver.1.1 hfree.1 hf
        · rw [view_setServer, hview]
          have hup : Function.update s.view.up i ((s.server i).fd != 0) = s.view.up := update_eq_self i _
          simp only [State.setListen, hup]
          exact .request i j fd (fun _ => rfl) hi hj hserver.1.1 hfree.1 hf

theorem serverGet_eq_some {fd : Nat} (h : serverGet cfg s fd = some i) :
    fd = (i + 1) * 256 ∧ i < cfg.serverNum ∧ s.view.up i = true := by
  rw [serverGet] at h
  split at h
  · rename_i hc
    cases h
    exact ⟨by omega, by omega, bne_iff_ne.mpr hc.2.2.2⟩
  · cases h

theorem view_taken {server : Server} {node : Node} (hserver : server.fd = (s.server i).fd)
    (hnode : node.fd = listenFd i j) (hpeer : node.clientFd = (s.listen i j).clientFd) :
    ((s.setServer i server).setListen i j node).view =
      { s.view with nodeFd := at₂ s.view.nodeFd i j (listenFd i j) } := by
  rw [view_setListen, view_setServer, hserver, hnode, hpeer]
  exact View.ext (update_eq_self i _) rfl (at₂_self s.view.nodePeer i j) rfl rfl

theorem accept_effect (hinv : Inv cfg s.view) (fd : Nat) (hf : Fine cfg s (.accept fd)) :
    Effect cfg s.view (.accept fd) (accept cfg s fd).2 (accept cfg s fd).1.view := by
  rw [accept]
  split
  · exact .same fun _ => rfl
  · rename_i i hserver
    obtain ⟨hfd, hi, hup⟩ := serverGet_eq_some hserver
    split
    · exact .same fun _ => rfl
    · have hview : (s.setServer i { s.server i with accept := (s.server i).accept - 1 }).view = s.view := by
        rw [view_setServer]
        exact View.ext (update_eq_self i _) rfl rfl rfl rfl
      dsimp only
      split
      · rw [hview]
        exact .same fun _ => rfl
      · rename_i j hslot
        obtain ⟨hj, hfree⟩ := first_eq_some hslot
        have hlisten : fd + (j + 1) = listenFd i j := by rw [hfd, listenFd]
        have hfresh := hf i hserver j hslot
        rw [hlisten] at hfresh ⊢
        split
        · rename_i hgone
          have hdead : ∀ k, s.view.clientFd k ≠ 0 → s.view.clientFd k ≠ s.view.nodePeer i j := fun k hk heq => by
            cases hgone.symm.trans ((clientGet_eq_some hinv).mpr ⟨heq, fun h0 => hk (heq.trans h0)⟩)
          rw [view_taken]
          · exact .refuse i j (fun _ => rfl) hi hj hup (beq_iff_eq.mp hfree) hfresh hdead
          all_goals rfl
        · rename_i k hclient
          obtain ⟨hk, hpos⟩ := (clientGet_eq_some hinv).mp hclient
          have hsame : Function.update s.view.clientFd k (s.client k).fd = s.view.clientFd :=
            update_eq_self k _
          rw [view_setClient, view_taken]
          · simp only [State.setListen, State.setServer, hsame]
            exact .accept i j k hi hj hup (beq_iff_eq.mp hfree) hfresh hk hpos
          all_goals rfl

theorem push_view (node : Node) (data : Bytes) :
    (node.push data).1.fd = node.fd ∧ (node.push data).1.clientFd = node.clientFd := by
  rw [Node.push]
  split <;> exact ⟨rfl, rfl⟩

theorem write_effect (fd : Nat) (data : Bytes) :
    Effect cfg s.view (.write fd data) (write cfg s fd data).2 (write cfg s fd data).1.view := by
  have hsame : (write cfg s fd data).1.view = s.view := by
    rw [write]
    split
    · rfl
    · split
      · split
        · rfl
        · split
          · rfl
          · rename_i i j _
            rw [view_setListen, (push_view _ _).1, (push_view _ _).2]
            exact View.ext rfl (at₂_self s.view.nodeFd i j) (at₂_self s.view.nodePeer i j) rfl rfl
      · split
        · rfl
        · split
          · rfl
          · rename_i k _
            rw [view_setClient, (push_view _ _).1, (push_view _ _).2]
            exact View.ext rfl rfl rfl (update_eq_self k _) (update_eq_self k _)
      · rfl
  rw [hsame]
  exact .same fun _ => rfl

theorem clientDestroy_effect (hinv : Inv cfg s.view) (fd : Nat) :
    Effect cfg s.view (.destroy fd) (clientDestroy cfg s fd).2 (clientDestroy cfg s fd).1.view := by
  rw [clientDestroy]
  split
  · exact .same fun _ => rfl
  · rename_i k hclient
    obtain ⟨rfl, hpos⟩ := (clientGet_eq_some hinv).mp hclient
    -- The error code of the partner is no part of the view.
    have hcleared : ∀ t : State, t.view = (s.setClient k { s.client k with fd := 0 }).view →
        (t.setClient k {}).view =
          { s.view with
            clientFd := Function.update s.view.clientFd k 0
            clientPeer := Function.update s.view.clientPeer k 0 } := by
      intro t ht
      rw [view_setClient, ht, view_setClient]
      exact View.ext rfl rfl rfl (update_idem ..) (update_idem ..)
    rw [hcleared]
    · exact .clientDestroy k hpos
    · split
      · rfl
      · split
        · rfl
        · rename_i i j _
          rw [view_setListen]
          exact View.ext rfl (at₂_self _ i j) (at₂_self _ i j) rfl rfl

theorem listenDestroy_effect (hinv : Inv cfg s.view) (fd : Nat) :
    Effect cfg s.view (.destroy fd) (listenDestroy cfg s fd).2 (listenDestroy cfg s fd).1.view := by
  rw [listenDestroy]
  split
  · exact .same fun _ => rfl
  · rename_i i j hlisten
    obtain ⟨rfl, hpos⟩ := (listenGet_eq_some hinv).mp hlisten
    have hcleared : ∀ t : State, t.view = (s.setListen i j { s.listen i j with fd := 0 }).view →
        (t.setListen i j {}).view =
          { s.view with nodeFd := at₂ s.view.nodeFd i j 0, nodePeer := at₂ s.view.nodePeer i j 0 } := by
      intro t ht
      rw [view_setListen, ht, view_setListen]
      exact View.ext rfl (at₂_at₂ ..) (at₂_at₂ ..) rfl rfl
    rw [hcleared]
    · exact .listenDestroy i j hpos
    · split
      · rfl
      · split
        · rfl
        · rename_i k _
          rw [view_setClient]
          exact View.ext rfl rfl rfl (update_eq_self k _) (update_eq_self k _)

theorem listenDestroy_of_down (hj : j < cfg.listenNum) (hdown : (s.server i).fd = 0) :
    listenDestroy cfg s (listenFd i j) = (s, .failed .einval) := by
  obtain ⟨hdiv, _⟩ := listenFd_div cfg (i := i) hj
  have hnone : listenGet cfg s (listenFd i j) = none := by
    rw [listenGet, hdiv, Nat.add_sub_cancel]
    exact if_neg fun h => h.2.2.1 hdown
  rw [listenDestroy, hnone]

theorem serverDestroy_effect (hinv : Inv cfg s.view) (fd : Nat) :
    Effect cfg s.view (.destroy fd) (serverDestroy cfg s fd).2 (serverDestroy cfg s fd).1.view := by
  rw [serverDestroy]
  split
  · exact .same fun _ => rfl
  · rename_i i hserver
    obtain ⟨rfl, hi, _⟩ := serverGet_eq_some hserver
    have hloop : ∀ j, (if ((s.setServer i { s.server i with fd := 0 }).listen i j).fd > 0 then
        (listenDestroy cfg (s.setServer i { s.server i with fd := 0 })
          ((s.setServer i { s.server i with fd := 0 }).listen i j).fd).1
        else s.setServer i { s.server i with fd := 0 }) = s.setServer i { s.server i with fd := 0 } := by
      intro j
      split
      · rename_i hpos
        have hlive : s.view.nodeFd i j ≠ 0 := Nat.ne_of_gt hpos
        have hfd : ((s.setServer i { s.server i with fd := 0 }).listen i j).fd = listenFd i j := hinv.node_fd hlive
        rw [hfd, listenDestroy_of_down (hinv.inside i j (.inl hlive)).2.2 (by simp [State.setServer])]
      · rfl
    dsimp only
    rw [foldl_fixed' hloop]
    have hview : ∀ v : View, v = { s.view with
        up := Function.update s.view.up i false
        nodeFd := Function.update s.view.nodeFd i fun _ => 0
        nodePeer := Function.update s.view.nodePeer i fun _ => 0 } →
        Effect cfg s.view (.destroy ((i + 1) * 256)) .ok v := by
      intro v hv
      rw [hv]
      exact .serverDestroy i hi
    refine hview _ (View.ext ?_ ?_ ?_ rfl rfl)
    · funext k
      by_cases h : k = i <;> simp [State.view, State.setServer, update_apply, h]
    · funext k l
      by_cases h : k = i <;> simp [State.view, State.setServer, h]
    · funext k l
      by_cases h : k = i <;> simp [State.view, State.setServer, h]

theorem step_effect (hinv : Inv cfg s.view) (e : Event) (hf : Fine cfg s e) :
    Effect cfg s.view e (step cfg s e).2 (step cfg s e).1.view := by
  cases e with
  | serverCreate host port rdSize wrSize => exact serverCreate_effect host port rdSize wrSize
  | clientCreate rdSize wrSize => exact clientCreate_effect rdSize wrSize hf
  | connect fd host port => exact connect_effect fd host port hf
  | accept fd => exact accept_effect hinv fd hf
  | write fd data => exact write_effect fd data
  | destroy fd =>
    rw [step, destroy]
    split
    · exact .same fun _ => rfl
    · exact clientDestroy_effect hinv fd
    · exact listenDestroy_effect hinv fd
    · exact serverDestroy_effect hinv fd

end Steps

/-! ### Steps keep the invariant -/

section Preserved
variable {cfg : Config} {v v' : View} {e : Event} {o : Out}

variable {i j k : Nat}

theorem ne_free {l : Nat} (hfree : v.nodeFd i j = 0) (hkl : v.nodeFd k l ≠ 0) : ¬ (k = i ∧ l = j) := by
  intro heq
  rw [heq.1, heq.2] at hkl
  exact hkl hfree

/-- A new client is nobody's peer. -/
theorem Inv.clientCreate (h : Inv cfg v) (hk : k < cfg.clientNum) (hfree : v.clientFd k = 0)
    (hfresh : ∀ i < cfg.serverNum, ∀ j < cfg.listenNum, v.nodePeer i j ≠ k + 1) :
    Inv cfg { v with clientFd := Function.update v.clientFd k (k + 1) } where
  client l := by
    by_cases hl : l = k
    · subst hl
      exact .inr ⟨hk, update_self ..⟩
    · simp only [update_of_ne hl]
      exact h.client l
  node := h.node
  inside := h.inside
  once := h.once
  both l i j hl hn := by
    by_cases hlk : l = k
    · subst hlk
      have hpeer : v.clientPeer l = 0 := by
        rcases h.client l with hc | hc
        · exact hc.2
        · exact absurd hfree (by rw [hc.2]; exact Nat.succ_ne_zero _)
      obtain ⟨_, hi, hj⟩ := h.inside i j (.inl hn)
      simp only [update_self, hpeer]
      exact iff_of_false (Ne.symm hn) (hfresh i hi j hj)
    · simp only [update_of_ne hlk] at hl ⊢
      exact h.both l i j hl hn

section
variable (h : Inv cfg v) (hi : i < cfg.serverNum) (hj : j < cfg.listenNum) (hup : v.up i = true)
include h hi hj hup

/-- A request changes a slot that is no node yet. -/
theorem Inv.request {fd : Nat} (hfree : v.nodeFd i j = 0)
    (hfresh : ∀ i < cfg.serverNum, ∀ j < cfg.listenNum, v.nodePeer i j ≠ fd) :
    Inv cfg { v with nodePeer := at₂ v.nodePeer i j fd } where
  client := h.client
  node := h.node
  inside k l hkl := by
    by_cases heq : k = i ∧ l = j
    · rw [heq.1, heq.2]
      exact ⟨hup, hi, hj⟩
    · simp only [at₂, if_neg heq] at hkl
      exact h.inside k l hkl
  once a b a' b' hne heq := by
    -- Nobody else has the new peer.
    have hother : ∀ a b, ¬ (a = i ∧ b = j) → fd ≠ 0 → v.nodePeer a b ≠ fd := fun a b _ hpos hab => by
      obtain ⟨_, ha, hb⟩ := h.inside a b (.inr (by rw [hab]; exact hpos))
      exact hfresh a ha b hb hab
    by_cases hab : a = i ∧ b = j
    · by_cases hab' : a' = i ∧ b' = j
      · exact ⟨hab'.1.trans hab.1.symm, hab'.2.trans hab.2.symm⟩
      · simp only [at₂, if_pos hab, if_neg hab'] at hne heq
        exact absurd heq (hother a' b' hab' hne)
    · by_cases hab' : a' = i ∧ b' = j
      · simp only [at₂, if_neg hab, if_pos hab'] at hne heq
        exact absurd heq.symm (hother a b hab (by rw [heq]; exact hne))
      · simp only [at₂, if_neg hab, if_neg hab'] at hne heq
        exact h.once a b a' b' hne heq
  both k a b hk hn := by
    simp only [at₂, if_neg (ne_free hfree hn)]
    exact h.both k a b hk hn

/-- A slot becomes a node, and the client of its request, if there still is one, gets it as peer. -/
theorem Inv.accept {peer : Nat → Nat} (hfresh : ∀ k < cfg.clientNum, v.clientPeer k ≠ listenFd i j)
    (hpeer : ∀ k, v.clientFd k ≠ 0 → v.clientFd k = v.nodePeer i j → peer k = listenFd i j)
    (hsame : ∀ k, v.clientFd k = 0 ∨ v.clientFd k ≠ v.nodePeer i j → peer k = v.clientPeer k) :
    Inv cfg { v with nodeFd := at₂ v.nodeFd i j (listenFd i j), clientPeer := peer } where
  client k := (h.client k).imp_left fun hk => ⟨hk.1, (hsame k (.inl hk.1)).trans hk.2⟩
  node a b := by
    by_cases hab : a = i ∧ b = j
    · simp only [at₂, if_pos hab]
      rw [hab.1, hab.2]
      exact .inr rfl
    · simp only [at₂, if_neg hab]
      exact h.node a b
  inside a b hlive := by
    by_cases hab : a = i ∧ b = j
    · rw [hab.1, hab.2]
      exact ⟨hup, hi, hj⟩
    · simp only [at₂, if_neg hab] at hlive
      exact h.inside a b hlive
  once := h.once
  both k a b hk hn := by
    by_cases hab : a = i ∧ b = j
    · obtain ⟨rfl, rfl⟩ := hab
      simp only [at₂, and_self, if_true]
      by_cases hkp : v.clientFd k = v.nodePeer a b
      · exact iff_of_true (hpeer k hk hkp) hkp.symm
      · rw [hsame k (.inr hkp)]
        exact iff_of_false (hfresh k (h.client_fd hk).1) (Ne.symm hkp)
    · simp only [at₂, if_neg hab] at hn ⊢
      by_cases hkp : v.clientFd k = v.nodePeer i j
      · rw [hpeer k hk hkp, h.node_fd hn]
        refine iff_of_false (fun heq => hab ?_) fun heq => hab ?_
        · obtain ⟨h1, h2⟩ := listenFd_inj hj (h.inside a b (.inl hn)).2.2 heq
          exact ⟨h1.symm, h2.symm⟩
        · exact h.once i j a b (by rw [← hkp]; exact hk) (heq.trans hkp)
      · rw [hsame k (.inr hkp)]
        exact h.both k a b hk hn
end

theorem Inv.clientDestroy (h : Inv cfg v) (k : Nat) :
    Inv cfg { v with clientFd := Function.update v.clientFd k 0, clientPeer := Function.update v.clientPeer k 0 } where
  client l := by
    by_cases hl : l = k
    · subst hl
      exact .inl ⟨update_self .., update_self ..⟩
    · simp only [update_of_ne hl]
      exact h.client l
  node := h.node
  inside := h.inside
  once := h.once
  both l i j hl hn := by
    have hlk : l ≠ k := by
      intro heq
      subst heq
      exact hl (update_self ..)
    simp only [update_of_ne hlk] at hl ⊢
    exact h.both l i j hl hn

/-- Nodes are cleared, and with them the server's descriptor or not. -/
theorem Inv.clear (h : Inv cfg v) (gone : Nat → Nat → Prop) {up : Nat → Bool} {fd peer : Nat → Nat → Nat}
    (hgone : ∀ i j, gone i j → fd i j = 0 ∧ peer i j = 0)
    (hkept : ∀ i j, ¬ gone i j → fd i j = v.nodeFd i j ∧ peer i j = v.nodePeer i j ∧ up i = v.up i) :
    Inv cfg { v with up := up, nodeFd := fd, nodePeer := peer } := by
  have hfd : ∀ i j, fd i j ≠ 0 → fd i j = v.nodeFd i j ∧ peer i j = v.nodePeer i j ∧ up i = v.up i := fun i j hne =>
    hkept i j fun hg => hne (hgone i j hg).1
  have hpeer : ∀ i j, peer i j ≠ 0 → fd i j = v.nodeFd i j ∧ peer i j = v.nodePeer i j ∧ up i = v.up i := fun i j hne =>
    hkept i j fun hg => hne (hgone i j hg).2
  refine ⟨h.client, fun i j => ?_, fun i j hne => ?_, fun i j i' j' hne heq => ?_, fun k i j hk hn => ?_⟩
  · by_cases h0 : fd i j = 0
    · exact .inl h0
    · show fd i j = 0 ∨ fd i j = listenFd i j
      rw [(hfd i j h0).1]
      exact h.node i j
  · obtain ⟨h1, h2, h3⟩ := hne.elim (hfd i j) (hpeer i j)
    simp only [h1, h2, h3] at hne ⊢
    exact h.inside i j hne
  · have h' := (hpeer i' j' fun h0 => hne (heq.symm.trans h0)).2.1
    have h1 := (hpeer i j hne).2.1
    simp only [h', h1] at hne heq
    exact h.once i j i' j' hne heq
  · obtain ⟨h1, h2, _⟩ := hfd i j hn
    simp only [h1, h2] at hn ⊢
    exact h.both k i j hk hn

/-- **Every step keeps the invariant.** -/
theorem Effect.inv (heff : Effect cfg v e o v') (h : Inv cfg v) : Inv cfg v' := by
  cases heff with
  | same => exact h
  | serverCreate i =>
    refine ⟨h.client, h.node, fun a b hab => ?_, h.once, h.both⟩
    obtain ⟨hup, ha, hb⟩ := h.inside a b hab
    refine ⟨?_, ha, hb⟩
    by_cases hai : a = i
    · subst hai
      exact update_self ..
    · exact (update_of_ne hai ..).trans hup
  | clientCreate k _ hk hfree hfresh => exact h.clientCreate hk hfree hfresh
  | request i j fd _ hi hj hup hfree hfresh => exact h.request hi hj hup hfree hfresh
  | refuse i j _ hi hj hup hfree hfresh hdead =>
    exact h.accept hi hj hup hfresh (fun k hk heq => absurd heq (hdead k hk)) fun _ _ => rfl
  | accept i j k hi hj hup hfree hfresh hk hpos =>
    refine h.accept hi hj hup hfresh (fun l hl heq => ?_) fun l hl => ?_
    · have hlk : l = k := by
        have h1 := (h.client_fd hl).2
        have h2 := (h.client_fd (k := k) (by rw [hk]; exact hpos)).2
        omega
      rw [hlk, update_self]
    · refine update_of_ne (fun heq => ?_) ..
      rw [heq, hk] at hl
      exact hl.elim hpos fun hne => hne rfl
  | clientDestroy k => exact h.clientDestroy k
  | listenDestroy i j =>
    refine h.clear (fun a b => a = i ∧ b = j) (fun a b hab => ?_) fun a b hab => ?_
    · simp only [at₂, if_pos hab, and_self]
    · simp only [at₂, if_neg hab, and_self]
  | serverDestroy i =>
    refine h.clear (fun a _ => a = i) (fun a b ha => ?_) fun a b ha => ?_
    · rw [ha, update_self, update_self]
      exact ⟨rfl, rfl⟩
    · rw [update_of_ne ha, update_of_ne ha, update_of_ne ha]
      exact ⟨rfl, rfl, rfl⟩

end Preserved

/-! ### Pairs -/

section Pairs
variable {cfg : Config} {v v' : View} {e : Event} {o : Out} {ps : List (Nat × Nat)}

def Paired (v : View) (ps : List (Nat × Nat)) : Prop :=
  ∀ k i j, v.clientFd k ≠ 0 → v.nodeFd i j ≠ 0 → v.clientPeer k = v.nodeFd i j → (v.clientFd k, v.nodeFd i j) ∈ ps

theorem Inv.client_lt (h : Inv cfg v) {k : Nat} (hk : v.clientFd k ≠ 0) : v.clientFd k < 256 := by
  have := cfg.clients
  obtain ⟨hlt, hfd⟩ := h.client_fd hk
  omega

theorem Inv.node_parts (h : Inv cfg v) {i j : Nat} (hn : v.nodeFd i j ≠ 0) :
    v.nodeFd i j / 256 = i + 1 ∧ v.nodeFd i j % 256 = j + 1 := by
  rw [h.node_fd hn]
  exact listenFd_div cfg (h.inside i j (.inl hn)).2.2

theorem Paired.accept (hp : Paired v ps) (h : Inv cfg v) {i j : Nat} {peer : Nat → Nat} {ps' : List (Nat × Nat)}
    (hj : j < cfg.listenNum) (hfresh : ∀ k < cfg.clientNum, v.clientPeer k ≠ listenFd i j)
    (hnew : ∀ k, v.clientFd k ≠ 0 → v.clientFd k = v.nodePeer i j →
      peer k = listenFd i j ∧ (v.clientFd k, listenFd i j) ∈ ps')
    (hsame : ∀ k, v.clientFd k ≠ 0 → v.clientFd k ≠ v.nodePeer i j → peer k = v.clientPeer k)
    (hps : ∀ p ∈ ps, p ∈ ps') :
    Paired { v with nodeFd := at₂ v.nodeFd i j (listenFd i j), clientPeer := peer } ps' := by
  intro k a b hk hn hpeer
  by_cases hkp : v.clientFd k = v.nodePeer i j
  · obtain ⟨hpk, hmem⟩ := hnew k hk hkp
    by_cases hab : a = i ∧ b = j
    · simp only [at₂, if_pos hab]
      exact hmem
    · simp only [at₂, if_neg hab] at hn hpeer
      rw [hpk, h.node_fd hn] at hpeer
      obtain ⟨rfl, rfl⟩ := listenFd_inj hj (h.inside a b (.inl hn)).2.2 hpeer
      exact absurd ⟨rfl, rfl⟩ hab
  · have hold := hsame k hk hkp
    simp only [hold] at hpeer
    by_cases hab : a = i ∧ b = j
    · simp only [at₂, if_pos hab] at hpeer
      exact absurd hpeer (hfresh k (h.client_fd hk).1)
    · simp only [at₂, if_neg hab] at hn hpeer ⊢
      exact hps _ (hp k a b hk hn hpeer)

/-- Who is destroyed is paired no longer; the others are. -/
theorem Paired.destroy (hp : Paired v ps) {fd : Nat}
    (hkept : ∀ k i j, v'.clientFd k ≠ 0 → v'.nodeFd i j ≠ 0 →
      v'.clientFd k = v.clientFd k ∧ v'.clientPeer k = v.clientPeer k ∧ v'.nodeFd i j = v.nodeFd i j ∧
        v.clientFd k ≠ fd ∧ v.nodeFd i j ≠ fd ∧ ¬ (fd % 256 = 0 ∧ v.nodeFd i j / 256 = fd / 256)) :
    Paired v' (pairStep ps (.destroy fd, .ok)) := by
  intro k i j hk hn hpeer
  obtain ⟨h1, h2, h3, h4, h5, h6⟩ := hkept k i j hk hn
  rw [h1] at hk
  rw [h3] at hn
  rw [h2, h3] at hpeer
  rw [h1, h3, pairStep, mem_filter]
  exact ⟨hp k i j hk hn hpeer, decide_eq_true ⟨h4, h5, h6⟩⟩

theorem Effect.paired (heff : Effect cfg v e o v') (h : Inv cfg v) (hp : Paired v ps) :
    Paired v' (pairStep ps (e, o)) := by
  cases heff with
  | same hsame => exact (hsame ps).symm ▸ hp
  | serverCreate i hsame => exact (hsame ps).symm ▸ hp
  | clientCreate k hsame hk hfree hfresh =>
    rw [hsame]
    intro l i j hl hn hpeer
    by_cases hlk : l = k
    · have hzero : v.clientPeer l = 0 := by
        rcases h.client l with hc | hc
        · exact hc.2
        · rw [hlk, hfree] at hc
          exact absurd hc.2 (Nat.succ_ne_zero _).symm
      exact absurd (hpeer.symm.trans hzero) hn
    · simp only [update_of_ne hlk] at hl ⊢
      exact hp l i j hl hn hpeer
  | request i j fd hsame => exact (hsame ps).symm ▸ hp
  | refuse i j hsame hi hj hup hfree hfresh hdead =>
    rw [hsame]
    exact hp.accept h hj hfresh (fun k hk heq => absurd heq (hdead k hk)) (fun _ _ _ => rfl) fun _ hmem => hmem
  | accept i j k hi hj hup hfree hfresh hk hpos =>
    have hplace : ∀ l, v.clientFd l ≠ 0 → v.clientFd l = v.nodePeer i j → l = k := fun l hl heq => by
      have h1 := (h.client_fd hl).2
      have h2 := (h.client_fd (k := k) (by rw [hk]; exact hpos)).2
      omega
    refine hp.accept h hj hfresh (fun l hl heq => ?_) (fun l hl hne => ?_) fun _ hmem => mem_cons_of_mem _ hmem
    · rw [hplace l hl heq, update_self, hk]
      exact ⟨rfl, mem_cons_self ..⟩
    · have hlk : l ≠ k := fun heq => hne (by rw [heq]; exact hk)
      exact update_of_ne hlk ..
  | clientDestroy k hk =>
    refine hp.destroy fun l i j hl hn => ?_
    have hlk : l ≠ k := by
      intro heq
      subst heq
      exact hl (update_self ..)
    simp only [update_of_ne hlk] at hl hn ⊢
    have h1 := (h.client_fd hk).2
    have h2 := (h.client_fd hl).2
    have h3 := h.client_lt hk
    have h4 := h.node_parts hn
    exact ⟨trivial, trivial, trivial, by omega, by omega, by omega⟩
  | listenDestroy i j hnode =>
    refine hp.destroy fun l a b hl hn => ?_
    have hab : ¬ (a = i ∧ b = j) := fun hab => hn (if_pos hab)
    simp only [at₂, if_neg hab] at hl hn ⊢
    have h1 := h.client_lt hl
    have h2 := h.node_parts hn
    have h3 := h.node_parts hnode
    exact ⟨trivial, trivial, trivial, by omega, by omega, by omega⟩
  | serverDestroy i hi =>
    refine hp.destroy fun l a b hl hn => ?_
    have ha : a ≠ i := by
      intro heq
      subst heq
      exact hn (by simp only [update_self])
    simp only [update_of_ne ha] at hl hn ⊢
    have h1 := h.client_lt hl
    have h2 := h.node_parts hn
    exact ⟨trivial, trivial, trivial, by omega, by omega, by omega⟩

end Pairs

/-! ### Bytes -/

section Bytes
variable {cfg : Config} {s : State}

theorem pushed_dest {fd dest n : Nat} {len : Option Nat} (h : pushed fd len = .wrote dest n) : dest = fd := by
  cases len with
  | none => cases h
  | some len =>
    cases h
    rfl

/-- Where the bytes of a write go: from a client to the node it refers to, or from a node to the
client it refers to. -/
theorem write_dest (hinv : Inv cfg s.view) {fd dest len : Nat} {data : Bytes}
    (h : (write cfg s fd data).2 = .wrote dest len) :
    ∃ k i j, s.view.clientFd k ≠ 0 ∧ s.view.nodeFd i j ≠ 0 ∧ s.view.clientPeer k = s.view.nodeFd i j ∧
      ((fd = s.view.clientFd k ∧ dest = s.view.nodeFd i j) ∨ (fd = s.view.nodeFd i j ∧ dest = s.view.clientFd k)) := by
  rw [write] at h
  split at h
  · cases h
  · split at h
    · split at h
      · cases h
      · rename_i k hclient
        obtain ⟨rfl, hk⟩ := (clientGet_eq_some hinv).mp hclient
        split at h
        · cases h
        · rename_i i j hlisten
          obtain ⟨hpeer, hn⟩ := (listenGet_eq_some hinv).mp hlisten
          rw [← hpeer] at hn
          exact ⟨k, i, j, hk, hn, hpeer.symm, .inl ⟨rfl, pushed_dest h⟩⟩
    · split at h
      · cases h
      · rename_i i j hlisten
        obtain ⟨rfl, hn⟩ := (listenGet_eq_some hinv).mp hlisten
        split at h
        · cases h
        · rename_i k hclient
          obtain ⟨hpeer, hk⟩ := (clientGet_eq_some hinv).mp hclient
          rw [← hpeer] at hk
          exact ⟨k, i, j, hk, hn, (hinv.both k i j hk hn).mpr hpeer.symm, .inr ⟨rfl, pushed_dest h⟩⟩
    · cases h

end Bytes

/-! ### Runs -/

def Mutual (s : State) : Prop :=
  ∀ k i j, (s.client k).fd ≠ 0 → (s.listen i j).fd ≠ 0 →
    ((s.client k).clientFd = (s.listen i j).fd ↔ (s.listen i j).clientFd = (s.client k).fd)

def Routed (trace : List (Event × Out)) : Prop :=
  ∀ pre fd data dest len post, trace = pre ++ (.write fd data, .wrote dest len) :: post →
    (fd, dest) ∈ pairs pre ∨ (dest, fd) ∈ pairs pre

section Runs
variable {cfg : Config}

theorem inv_start : Inv cfg (State.view {}) :=
  ⟨fun _ => .inl ⟨rfl, rfl⟩, fun _ _ => .inl rfl, fun _ _ h => (h.elim (· rfl) (· rfl)).elim,
    fun _ _ _ _ h => absurd rfl h, fun _ _ _ h => absurd rfl h⟩

theorem pairs_snoc (trace : List (Event × Out)) (x : Event × Out) : pairs (trace ++ [x]) = pairStep (pairs trace) x := by
  rw [pairs, foldl_append]
  rfl

theorem Routed.snoc {trace : List (Event × Out)} {e : Event} {o : Out} (h : Routed trace)
    (hlast : ∀ fd data dest len, e = .write fd data → o = .wrote dest len →
      (fd, dest) ∈ pairs trace ∨ (dest, fd) ∈ pairs trace) : Routed (trace ++ [(e, o)]) := by
  intro pre fd data dest len post heq
  obtain ⟨rfl, hx, rfl⟩ | ⟨rest, rfl, hrest⟩ := split_snoc heq
  · cases hx
    exact hlast fd data dest len rfl rfl
  · exact h pre fd data dest len rest hrest

/-- **Channels stay paired.** In every run in which no descriptor is given out while another
endpoint still refers to it, and no client asks for a second node: a client and a listen node
refer to each other or not at all, and all bytes go to the partner. -/
theorem channels_stay_paired (cfg : Config) (events : List Event) (hm : (machine cfg).Meets (Fine cfg) {} events) :
    ∃ s trace, (machine cfg).run {} events = some (s, trace) ∧ Mutual s ∧ Routed trace := by
  have hrun : ∃ s trace, (machine cfg).run {} events = some (s, trace) ∧
      (Inv cfg s.view ∧ Paired s.view (pairs trace) ∧ Routed trace) := by
    refine (machine cfg).run_total (Fine cfg)
      (fun trace s => Inv cfg s.view ∧ Paired s.view (pairs trace) ∧ Routed trace) ?_
      ⟨inv_start, fun _ _ _ h => absurd rfl h,
        fun pre _ _ _ _ _ h => absurd h.symm (append_ne_nil_of_right_ne_nil _ (cons_ne_nil _ _))⟩ hm
    intro past s e ⟨hinv, hpaired, hrouted⟩ hf
    have heff := step_effect hinv e hf
    refine ⟨(step cfg s e).1, (step cfg s e).2, rfl, heff.inv hinv, ?_, hrouted.snoc ?_⟩
    · rw [pairs_snoc]
      exact heff.paired hinv hpaired
    · intro fd data dest len he ho
      rw [he] at ho
      obtain ⟨k, i, j, hk, hn, hpeer, hends⟩ := write_dest hinv ho
      have hmem := hpaired k i j hk hn hpeer
      rcases hends with ⟨rfl, rfl⟩ | ⟨rfl, rfl⟩
      · exact .inl hmem
      · exact .inr hmem
  obtain ⟨s, trace, hr, hinv, _, hrouted⟩ := hrun
  exact ⟨s, trace, hr, hinv.both, hrouted⟩

end Runs

def defaultConfig : Config := ⟨4, 8, 8, by decide, by decide⟩

/-- Two clients, a server, both accepted; one writes, one goes and its node is cleared away, and
the descriptor is used again. -/
def fineEvents : List Event :=
  [.serverCreate none 80 64 64, .clientCreate 64 64, .clientCreate 64 64, .connect 1 none 80, .connect 2 none 80,
    .accept 256, .accept 256, .write 2 [1, 2], .write 257 [3], .destroy 1, .destroy 257, .clientCreate 64 64,
    .connect 1 none 80, .accept 256, .write 1 [4]]

theorem channels_stay_paired_two :
    (machine defaultConfig).Meets (Fine defaultConfig) {} fineEvents ∧
    ∃ s trace, (machine defaultConfig).run {} fineEvents = some (s, trace) ∧ Mutual s ∧ Routed trace :=
  have hm : (machine defaultConfig).Meets (Fine defaultConfig) {} fineEvents := by decide +kernel
  ⟨hm, channels_stay_paired defaultConfig fineEvents hm⟩

def staleEvents : List Event :=
  [.serverCreate none 80 64 64, .clientCreate 64 64, .connect 1 none 80, .accept 256, .destroy 1, .clientCreate 64 64]

/-- The node refers to the new client, which does not refer to it; what is written on the node
is delivered to the new client. -/
theorem stale_peer_gets_bytes :
    ((machine defaultConfig).run {} (staleEvents ++ [.write 257 [7]])).map (fun r =>
      ((r.1.client 0).fd, (r.1.client 0).clientFd, (r.1.client 0).inbox, (r.1.listen 0 0).fd, (r.1.listen 0 0).clientFd)) =
        some (1, 0, [7], 257, 1) ∧
    ((machine defaultConfig).run {} staleEvents).map (fun r => pairs r.2) = some [] := by
  decide +kernel

end Qumios.VirtualChannel
