import Mathlib.Data.List.Induction
import Mathlib.Logic.Relation

/-!
# Walks in a tree

A path is the list of the nodes from the root. A walker enters a new child,
leaves the node it is at, saves its path, and jumps to a path it has saved.
Nodes are known by their keys. All paths there are stay paths of one tree, and
so a jump is a walk: out of the nodes that are left, the last first, and into
those that are entered, the first first.
-/

namespace TreeWalk

variable {α : Type} {key : α → ℕ}

/-! ## Paths of one tree -/

/-- Where two paths have nodes with one key, it is one node, and the ways to it
are the same. -/
def Together (key : α → ℕ) (p q : List α) : Prop :=
  ∀ ⦃u v s t : List α⦄ ⦃a b : α⦄, p = u ++ a :: s → q = v ++ b :: t → key a = key b →
    u = v ∧ a = b

variable {p q r : List α} {a b : α}

theorem Together.symm (h : Together key p q) : Together key q p := by
  intro u v s t a b hq hp hkey
  obtain ⟨rfl, rfl⟩ := h hp hq hkey.symm
  exact ⟨rfl, rfl⟩

/-- A part of a path is a path of the same tree. -/
theorem Together.part (h : Together key p q) (hr : r <+: p) : Together key r q := by
  intro u v s t a b hr' hq hkey
  obtain ⟨rest, rfl⟩ := hr
  refine h (s := s ++ rest) ?_ hq hkey
  rw [hr', List.append_assoc, List.cons_append]

theorem Together.tail (h : Together key (a :: p) (a :: q)) : Together key p q := by
  intro u v s t x y hp hq hkey
  have hpath := h (u := a :: u) (v := a :: v) (congrArg (a :: ·) hp) (congrArg (a :: ·) hq) hkey
  exact ⟨List.cons.inj hpath.1 |>.2, hpath.2⟩

/-- The last node of a path, or a node before it. -/
theorem snoc_split {u s : List α} {x : α} (h : p ++ [a] = u ++ x :: s) :
    (p = u ∧ a = x) ∨ ∃ s', p = u ++ x :: s' := by
  rcases List.eq_nil_or_concat s with rfl | ⟨s', y, rfl⟩
  · exact .inl ((List.append_inj' h rfl).imp_right fun h => List.cons.inj h |>.1)
  · rw [List.concat_eq_append, ← List.cons_append, ← List.append_assoc] at h
    exact .inr ⟨s', (List.append_inj' h rfl).1⟩

/-- A new node is put at the end of a path. -/
theorem Together.snoc (h : Together key p q) (ha : ∀ b ∈ q, key b ≠ key a) :
    Together key (p ++ [a]) q := by
  intro u v s t x y hp hq hkey
  obtain ⟨-, rfl⟩ | ⟨s', hp'⟩ := snoc_split hp
  · refine absurd hkey.symm (ha y ?_)
    rw [hq]
    exact List.mem_append_right _ List.mem_cons_self
  · exact h hp' hq hkey

theorem Together.snoc_self (h : Together key p p) (ha : ∀ b ∈ p, key b ≠ key a) :
    Together key (p ++ [a]) (p ++ [a]) := by
  intro u v s t x y hp hq hkey
  obtain ⟨rfl, rfl⟩ | ⟨t', hq'⟩ := snoc_split hq
  · obtain ⟨rfl, rfl⟩ | ⟨s', hp'⟩ := snoc_split hp
    · exact ⟨rfl, rfl⟩
    · refine absurd hkey (ha x ?_)
      rw [hp']
      exact List.mem_append_right _ List.mem_cons_self
  · exact (h.snoc ha) hp hq' hkey

/-! ## From one path to another -/

/-- The number of the nodes that two paths begin with. -/
def shared (key : α → ℕ) : List α → List α → ℕ
  | a :: p, b :: q => if key a = key b then shared key p q + 1 else 0
  | _, _ => 0

/-- **The fork of two paths**: what comes after it in one is not in the other. -/
theorem Together.fork (h : Together key p q) : ∃ u s t, p = u ++ s ∧ q = u ++ t ∧
    shared key p q = u.length ∧ (∀ a ∈ s, ∀ b ∈ q, key a ≠ key b) ∧
    ∀ b ∈ t, ∀ a ∈ p, key b ≠ key a := by
  have hshared : ∀ {p q : List α}, Together key p q → ∃ u s t, p = u ++ s ∧ q = u ++ t ∧
      shared key p q = u.length ∧ ∀ a b s' t', s = a :: s' → t = b :: t' → key a ≠ key b := by
    intro p
    induction p with
    | nil => exact fun {q} _ => ⟨[], [], q, rfl, rfl, rfl, fun _ _ _ _ h => by cases h⟩
    | cons a p ih =>
      intro q h
      cases q with
      | nil => exact ⟨[], a :: p, [], rfl, rfl, rfl, fun _ _ _ _ _ h => by cases h⟩
      | cons b q =>
        by_cases hkey : key a = key b
        · obtain ⟨-, rfl⟩ := h (u := []) (v := []) rfl rfl hkey
          obtain ⟨u, s, t, rfl, rfl, hlen, hfirst⟩ := ih h.tail
          refine ⟨a :: u, s, t, rfl, rfl, ?_, hfirst⟩
          rw [shared, if_pos rfl, hlen, List.length_cons]
        · refine ⟨[], a :: p, b :: q, rfl, rfl, by rw [shared, if_neg hkey]; rfl, ?_⟩
          rintro _ _ _ _ ⟨⟩ ⟨⟩
          exact hkey
  obtain ⟨u, s, t, rfl, rfl, hlen, hfirst⟩ := hshared h
  -- two nodes with one key come the same way, so that neither is after the fork
  have hafter : ∀ a ∈ s, ∀ b ∈ u ++ t, key a ≠ key b := by
    intro a ha b hb hkey
    obtain ⟨s₁, s₂, rfl⟩ := List.append_of_mem ha
    obtain ⟨v, w, hvw⟩ := List.append_of_mem hb
    obtain ⟨hway, rfl⟩ := h (u := u ++ s₁) (List.append_assoc _ _ _).symm hvw hkey
    rw [← hway, List.append_assoc] at hvw
    have ht := List.append_cancel_left hvw
    cases s₁ with
    | nil => exact hfirst a a s₂ w rfl ht rfl
    | cons x s₁ => exact hfirst x x _ _ rfl ht rfl
  refine ⟨u, s, t, rfl, rfl, hlen, hafter, fun b hb a ha hkey => ?_⟩
  obtain ⟨v, w, hvw⟩ := List.append_of_mem ha
  obtain ⟨t₁, t₂, rfl⟩ := List.append_of_mem hb
  obtain ⟨hway, rfl⟩ := h hvw (List.append_assoc u t₁ (b :: t₂)).symm hkey.symm
  rw [hway, List.append_assoc] at hvw
  have hs := List.append_cancel_left hvw
  cases t₁ with
  | nil => exact hfirst a a w t₂ hs rfl rfl
  | cons x t₁ => exact hfirst x x _ _ hs rfl rfl

/-- A step of a walk. -/
inductive Move (α : Type) where
  | leave (a : α)
  | enter (a : α)

/-- The moves from the end of one path to the end of another. -/
def movesBetween (key : α → ℕ) (p q : List α) : List (Move α) :=
  (p.drop (shared key p q)).reverse.map .leave ++ (q.drop (shared key p q)).map .enter

/-- A walk: the node that is left is the last of the path. -/
inductive Walk : List α → List (Move α) → List α → Prop
  | here (p : List α) : Walk p [] p
  | leave {p q a moves} : Walk p moves q → Walk (p ++ [a]) (.leave a :: moves) q
  | enter {p q a moves} : Walk (p ++ [a]) moves q → Walk p (.enter a :: moves) q

theorem Walk.trans {ms ns : List (Move α)} (h : Walk p ms q) (h' : Walk q ns r) :
    Walk p (ms ++ ns) r := by
  induction h with
  | here => exact h'
  | leave _ ih => exact .leave (ih h')
  | enter _ ih => exact .enter (ih h')

theorem walk_leave (u s : List α) : Walk (u ++ s) (s.reverse.map .leave) u := by
  induction s using List.reverseRec with
  | nil =>
    rw [List.append_nil]
    exact .here u
  | append_singleton s a ih =>
    rw [List.reverse_append, List.reverse_singleton, List.singleton_append, List.map_cons,
      ← List.append_assoc]
    exact .leave ih

theorem walk_enter (u t : List α) : Walk u (t.map .enter) (u ++ t) := by
  induction t generalizing u with
  | nil =>
    rw [List.append_nil]
    exact .here u
  | cons a t ih =>
    have hrest := ih (u ++ [a])
    rw [List.append_assoc, List.singleton_append] at hrest
    exact .enter hrest

/-- **A jump is a walk.** -/
theorem Together.walk (h : Together key p q) : Walk p (movesBetween key p q) q := by
  obtain ⟨u, s, t, rfl, rfl, hlen, -⟩ := h.fork
  unfold movesBetween
  rw [hlen, List.drop_left, List.drop_left]
  exact (walk_leave u s).trans (walk_enter u t)

/-- What is left is what the other path does not have. -/
theorem Together.leave_mem_iff (h : Together key p q) (a : α) :
    Move.leave a ∈ movesBetween key p q ↔ a ∈ p ∧ a ∉ q := by
  obtain ⟨u, s, t, rfl, rfl, hlen, hs, -⟩ := h.fork
  unfold movesBetween
  rw [hlen, List.drop_left, List.drop_left, List.mem_append]
  constructor
  · rintro (ha | ha)
    · obtain ⟨b, hb, hba⟩ := List.mem_map.mp ha
      cases hba
      have hmem := List.mem_reverse.mp hb
      exact ⟨List.mem_append_right _ hmem, fun hq => hs a hmem a hq rfl⟩
    · obtain ⟨b, -, hb⟩ := List.mem_map.mp ha
      cases hb
  · rintro ⟨hp, hq⟩
    refine .inl (List.mem_map.mpr ⟨a, List.mem_reverse.mpr ?_, rfl⟩)
    exact (List.mem_append.mp hp).resolve_left fun hu => hq (List.mem_append_left _ hu)

/-- What is entered is what the other path does not have. -/
theorem Together.enter_mem_iff (h : Together key p q) (a : α) :
    Move.enter a ∈ movesBetween key p q ↔ a ∈ q ∧ a ∉ p := by
  obtain ⟨u, s, t, rfl, rfl, hlen, -, ht⟩ := h.fork
  unfold movesBetween
  rw [hlen, List.drop_left, List.drop_left, List.mem_append]
  constructor
  · rintro (ha | ha)
    · obtain ⟨b, -, hb⟩ := List.mem_map.mp ha
      cases hb
    · obtain ⟨b, hb, hba⟩ := List.mem_map.mp ha
      cases hba
      exact ⟨List.mem_append_right _ hb, fun hp => ht a hb a hp rfl⟩
  · rintro ⟨hq, hp⟩
    refine .inr (List.mem_map.mpr ⟨a, ?_, rfl⟩)
    exact (List.mem_append.mp hq).resolve_left fun hu => hp (List.mem_append_left _ hu)

/-- The node with a key is entered. -/
def Move.enters (key : α → ℕ) (k : ℕ) : Move α → Bool
  | .enter a => key a == k
  | .leave _ => false

/-- The node with a key is left. -/
def Move.leaves (key : α → ℕ) (k : ℕ) : Move α → Bool
  | .enter _ => false
  | .leave a => key a == k

/-- **The books balance**: a node is entered once more than it is left exactly
when the walk ends below it and has not begun there. -/
theorem Walk.balance {ms : List (Move α)} (h : Walk p ms q) (k : ℕ) :
    ms.countP (Move.enters key k) + p.countP (key · == k) =
      ms.countP (Move.leaves key k) + q.countP (key · == k) := by
  induction h with
  | here => rfl
  | @leave p q a moves _ ih =>
    have henters : (Move.leave a :: moves).countP (Move.enters key k) =
        moves.countP (Move.enters key k) := List.countP_cons_of_neg Bool.false_ne_true
    have hleaves : (Move.leave a :: moves).countP (Move.leaves key k) =
        moves.countP (Move.leaves key k) + [a].countP (key · == k) :=
      List.countP_cons.trans (congrArg _ (by rw [List.countP_singleton]; rfl))
    rw [henters, hleaves, List.countP_append]
    omega
  | @enter p q a moves _ ih =>
    have henters : (Move.enter a :: moves).countP (Move.enters key k) =
        moves.countP (Move.enters key k) + [a].countP (key · == k) :=
      List.countP_cons.trans (congrArg _ (by rw [List.countP_singleton]; rfl))
    have hleaves : (Move.enter a :: moves).countP (Move.leaves key k) =
        moves.countP (Move.leaves key k) := List.countP_cons_of_neg Bool.false_ne_true
    rw [List.countP_append] at ih
    rw [henters, hleaves]
    omega

/-! ## The walker -/

/-- A walker: the path to where it is, the key of the next new node, and the
paths it has saved. -/
structure Walker (α : Type) where
  path : List α
  next : ℕ
  saved : List (List α)

/-- What a walker does. -/
inductive Goes (key : α → ℕ) : Walker α → Walker α → Prop
  | save (w) : Goes key w { w with saved := w.saved ++ [w.path] }
  | enter (w) {a} : key a = w.next →
      Goes key w { w with path := w.path ++ [a], next := w.next + 1 }
  | leave (w) : Goes key w { w with path := w.path.dropLast }
  | jump (w) {p} : p ∈ w.saved → Goes key w { w with path := p }

/-- **All paths are of one tree**, whose nodes have keys below the next one. -/
structure Walker.Rooted (key : α → ℕ) (w : Walker α) : Prop where
  below : ∀ p ∈ w.path :: w.saved, ∀ a ∈ p, key a < w.next
  together : ∀ p ∈ w.path :: w.saved, ∀ q ∈ w.path :: w.saved, Together key p q

variable {w w' : Walker α}

/-- A walker whose paths are all parts of paths there were. -/
theorem Walker.Rooted.of_parts (h : w.Rooted key) (hnext : w'.next = w.next)
    (hpaths : ∀ p ∈ w'.path :: w'.saved, ∃ q ∈ w.path :: w.saved, p <+: q) : w'.Rooted key := by
  constructor
  · intro p hp a ha
    obtain ⟨q, hq, hpre⟩ := hpaths p hp
    rw [hnext]
    exact h.below q hq a (hpre.subset ha)
  · intro p hp q hq
    obtain ⟨p', hp', hpre⟩ := hpaths p hp
    obtain ⟨q', hq', hpre'⟩ := hpaths q hq
    have hpart : Together key p q' := (h.together p' hp' q' hq').part hpre
    exact (hpart.symm.part hpre').symm

/-- **The paths stay paths of one tree.** -/
theorem Goes.rooted (hstep : Goes key w w') (h : w.Rooted key) : w'.Rooted key := by
  cases hstep with
  | save =>
    refine h.of_parts rfl fun p hp => ⟨p, ?_, List.prefix_refl p⟩
    rcases List.mem_cons.mp hp with rfl | hp
    · exact List.mem_cons_self
    · rcases List.mem_append.mp hp with hp | hp
      · exact List.mem_cons_of_mem _ hp
      · rw [List.mem_singleton.mp hp]
        exact List.mem_cons_self
  | leave =>
    refine h.of_parts rfl fun p hp => ?_
    rcases List.mem_cons.mp hp with rfl | hp
    · exact ⟨w.path, List.mem_cons_self, List.dropLast_prefix _⟩
    · exact ⟨p, List.mem_cons_of_mem _ hp, List.prefix_refl p⟩
  | @jump p hp' =>
    refine h.of_parts rfl fun q hq => ⟨q, ?_, List.prefix_refl q⟩
    rcases List.mem_cons.mp hq with rfl | hq
    · exact List.mem_cons_of_mem _ hp'
    · exact List.mem_cons_of_mem _ hq
  | @enter a hkey =>
    have hnew : ∀ p ∈ w.path :: w.saved, ∀ b ∈ p, key b ≠ key a := fun p hp b hb =>
      Nat.ne_of_lt (hkey ▸ h.below p hp b hb)
    have hsaved : ∀ q ∈ w.saved, Together key (w.path ++ [a]) q := fun q hq =>
      (h.together _ List.mem_cons_self q (List.mem_cons_of_mem _ hq)).snoc
        (hnew q (List.mem_cons_of_mem _ hq))
    constructor
    · intro p hp b hb
      show key b < w.next + 1
      rcases List.mem_cons.mp hp with rfl | hp
      · rcases List.mem_append.mp hb with hb | hb
        · exact Nat.lt_succ_of_lt (h.below _ List.mem_cons_self b hb)
        · rw [List.mem_singleton.mp hb, hkey]
          exact Nat.lt_succ_self _
      · exact Nat.lt_succ_of_lt (h.below p (List.mem_cons_of_mem _ hp) b hb)
    · intro p hp q hq
      rcases List.mem_cons.mp hp with rfl | hp <;> rcases List.mem_cons.mp hq with rfl | hq
      · exact (h.together _ List.mem_cons_self _ List.mem_cons_self).snoc_self
          (hnew _ List.mem_cons_self)
      · exact hsaved q hq
      · exact (hsaved p hp).symm
      · exact h.together p (List.mem_cons_of_mem _ hp) q (List.mem_cons_of_mem _ hq)

/-- A walker does one thing after the other. -/
abbrev Roams (key : α → ℕ) : Walker α → Walker α → Prop := Relation.ReflTransGen (Goes key)

theorem Roams.rooted (hsteps : Roams key w w') (h : w.Rooted key) : w'.Rooted key := by
  induction hsteps with
  | refl => exact h
  | tail _ hstep ih => exact hstep.rooted ih

/-- A walker that saves its path, any number of times. -/
theorem roams_saves (w : Walker α) {ps : List (List α)} (hps : ∀ p ∈ ps, p = w.path) :
    Roams key w { w with saved := w.saved ++ ps } := by
  induction ps using List.reverseRec with
  | nil =>
    rw [List.append_nil]
  | append_singleton ps p ih =>
    obtain rfl := hps p (List.mem_append_right ps List.mem_cons_self)
    rw [← List.append_assoc]
    exact (ih fun q hq => hps q (List.mem_append_left _ hq)).tail
      (.save { w with saved := w.saved ++ ps })

/-- Of two paths of one tree, none is longer than the other with the same keys. -/
theorem Together.eq_of_keys (h : Together key p q) (hkeys : p.map key = q.map key) : p = q := by
  induction p generalizing q with
  | nil => exact (List.map_eq_nil_iff.mp hkeys.symm).symm
  | cons a p ih =>
    cases q with
    | nil => cases hkeys
    | cons b q =>
      obtain ⟨hkey, hrest⟩ := List.cons.inj hkeys
      obtain ⟨-, rfl⟩ := h (u := []) (v := []) rfl rfl hkey
      rw [ih h.tail hrest]

/-- A path that is kept aside is one more saved path. -/
def Walker.keeping (w : Walker α) (p : List α) : Walker α := { w with saved := p :: w.saved }

theorem Goes.keeping (h : Goes key w w') (p : List α) : Goes key (w.keeping p) (w'.keeping p) := by
  cases h with
  | save => exact .save _
  | enter hkey => exact .enter (w.keeping p) hkey
  | leave => exact .leave _
  | jump hp => exact .jump (w.keeping p) (List.mem_cons_of_mem _ hp)

theorem Walker.Rooted.keeping (h : w.Rooted key) : (w.keeping w.path).Rooted key :=
  h.of_parts rfl fun p hp => ⟨p, by
    rcases List.mem_cons.mp hp with rfl | hp
    · exact List.mem_cons_self
    · exact hp, List.prefix_refl p⟩

/-- **The paths of different times** are of one tree too. -/
theorem Roams.together (hsteps : Roams key w w') (h : w.Rooted key) :
    Together key w.path w'.path := by
  have hkept : Roams key (w.keeping w.path) (w'.keeping w.path) := by
    generalize w.path = p
    induction hsteps with
    | refl => exact .refl
    | tail _ hstep ih => exact ih.tail (hstep.keeping p)
  exact (hkept.rooted h.keeping).together _ (List.mem_cons_of_mem _ List.mem_cons_self) _
    List.mem_cons_self

/-- **A path has no key twice.** -/
theorem Together.countP_le_one (h : Together key p p) (k : ℕ) : p.countP (key · == k) ≤ 1 := by
  induction p with
  | nil => exact Nat.zero_le _
  | cons a p ih =>
    rw [List.countP_cons]
    by_cases hkey : key a = k
    · have hrest : p.countP (key · == k) = 0 := by
        refine List.countP_eq_zero.mpr fun b hb hbk => ?_
        obtain ⟨s, t, rfl⟩ := List.append_of_mem hb
        obtain ⟨hway, -⟩ := h (u := []) (v := a :: s) rfl rfl (hkey.trans (beq_iff_eq.mp hbk).symm)
        cases hway
      rw [hrest]
      split <;> omega
    · rw [if_neg (by rwa [beq_iff_eq])]
      exact ih h.tail

theorem Together.countP_eq (h : Together key p p) (k : ℕ) :
    p.countP (key · == k) = if k ∈ p.map key then 1 else 0 := by
  by_cases hk : k ∈ p.map key
  · rw [if_pos hk]
    obtain ⟨a, ha, hkey⟩ := List.mem_map.mp hk
    exact Nat.le_antisymm (h.countP_le_one k)
      (List.countP_pos_iff.mpr ⟨a, ha, beq_iff_eq.mpr hkey⟩)
  · rw [if_neg hk]
    exact List.countP_eq_zero.mpr fun a ha hkey =>
      hk (List.mem_map.mpr ⟨a, ha, beq_iff_eq.mp hkey⟩)

end TreeWalk
