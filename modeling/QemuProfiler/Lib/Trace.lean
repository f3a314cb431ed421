/-
  QemuProfiler.Lib.Trace
  ──────────────────────
  Traces that several parties write into one list.

    • `pairs` — an entry with the next one,
    • `Along` — a property of every entry together with its PAST,
    • `sum_parties` — totals over the parties are totals over the trace,
    • `flatMap_pairs` — a relay from the previous entry of the same party is
      a function of the consecutive pairs of that party.
-/
import Mathlib.Algebra.BigOperators.Group.List.Basic
import Mathlib.Data.List.Induction
import Mathlib.Algebra.Ring.Nat
import Mathlib.Data.List.Nodup

namespace QemuProfiler.Lib

variable {α β : Type}

/-! ## §1. Consecutive pairs. -/

/-- Every entry with its successor. -/
def pairs (l : List α) : List (α × α) := l.zip l.tail

theorem pairs_cons_cons (a b : α) (l : List α) :
    pairs (a :: b :: l) = (a, b) :: pairs (b :: l) := rfl

/-- One more entry pairs with the last one before it. -/
theorem pairs_concat (l : List α) (x : α) :
    pairs (l ++ [x]) = pairs l ++ l.getLast?.toList.map fun a => (a, x) := by
  induction l with
  | nil => rfl
  | cons a l ih =>
      cases l with
      | nil => rfl
      | cons b l =>
          rw [List.cons_append, List.cons_append, pairs_cons_cons, pairs_cons_cons,
              List.getLast?_cons_cons, List.cons_append]
          rw [List.cons_append] at ih
          rw [ih]

/-! ## §2. Entries with their past. -/

/-- The property holds of every entry and the entries before it. -/
def Along (P : List α → α → Prop) (l : List α) : Prop :=
  ∀ past a rest, l = past ++ a :: rest → P past a

theorem along_nil (P : List α → α → Prop) : Along P [] := by
  intro past a rest h
  simp at h

/-- Splitting a longer trace: at an old entry, or at the new one. -/
theorem concat_eq_append_cons {l past rest : List α} {x a : α} :
    l ++ [x] = past ++ a :: rest
      ↔ (rest = [] ∧ past = l ∧ a = x) ∨ ∃ rest', rest = rest' ++ [x] ∧ l = past ++ a :: rest' := by
  constructor
  · intro h
    -- the last entries of the two sides agree: `x` is `a` itself, or ends `rest`
    rcases List.eq_nil_or_concat rest with hr | ⟨rest', y, hr⟩
    · rw [hr] at h
      obtain ⟨hl, hx⟩ := List.append_inj' h rfl
      exact Or.inl ⟨hr, hl.symm, (List.cons.inj hx).1.symm⟩
    · rw [List.concat_eq_append] at hr
      rw [hr, ← List.cons_append, ← List.append_assoc] at h
      obtain ⟨hl, hx⟩ := List.append_inj' h rfl
      exact Or.inr ⟨rest', by rw [hr, (List.cons.inj hx).1], hl⟩
  · intro h
    rcases h with ⟨rfl, rfl, rfl⟩ | ⟨rest', rfl, rfl⟩
    · rfl
    · rw [← List.cons_append, ← List.append_assoc]

theorem along_concat (P : List α → α → Prop) (l : List α) (x : α) :
    Along P (l ++ [x]) ↔ Along P l ∧ P l x := by
  constructor
  · intro h
    refine ⟨?_, h l x [] rfl⟩
    intro past a rest hl
    exact h past a (rest ++ [x]) (concat_eq_append_cons.mpr (Or.inr ⟨rest, rfl, hl⟩))
  · intro hand past a rest hl
    obtain ⟨h, hx⟩ := hand
    rcases concat_eq_append_cons.mp hl with ⟨_, rfl, rfl⟩ | ⟨rest', _, hl'⟩
    · exact hx
    · exact h past a rest' hl'

/-- Every entry next to its past, after some earlier entries. -/
def withPastFrom : List α → List α → List (List α × α)
  | _, [] => []
  | past, a :: l => (past, a) :: withPastFrom (past ++ [a]) l

def withPast (l : List α) : List (List α × α) := withPastFrom [] l

theorem withPast_concat (l : List α) (x : α) : withPast (l ++ [x]) = withPast l ++ [(l, x)] := by
  -- the past grows along the recursion, so the induction needs every past
  suffices h : ∀ (l past : List α),
      withPastFrom past (l ++ [x]) = withPastFrom past l ++ [(past ++ l, x)] from h l []
  intro l
  induction l with
  | nil => intro past; simp [withPastFrom]
  | cons a l ih => intro past; simp [withPastFrom, ih]

theorem map_snd_withPast (l : List α) : (withPast l).map Prod.snd = l := by
  induction l using List.reverseRecOn with
  | nil => rfl
  | append_singleton l x ih => rw [withPast_concat, List.map_append, ih]; rfl

theorem mem_of_mem_withPast {l : List α} {e : List α × α} (h : e ∈ withPast l) : e.2 ∈ l := by
  rw [← map_snd_withPast l]
  exact List.mem_map.mpr ⟨e, h, rfl⟩

theorem along_iff_withPast (P : List α → α → Prop) (l : List α) :
    Along P l ↔ ∀ e ∈ withPast l, P e.1 e.2 := by
  induction l using List.reverseRecOn with
  | nil => exact ⟨fun _ e he => absurd he (List.not_mem_nil), fun _ => along_nil P⟩
  | append_singleton l x ih =>
      rw [along_concat, ih, withPast_concat, List.forall_mem_append, List.forall_mem_singleton]

instance (P : List α → α → Prop) [∀ past a, Decidable (P past a)] (l : List α) :
    Decidable (Along P l) :=
  decidable_of_iff _ (along_iff_withPast P l).symm

/-! ## §3. Parties. -/

/-- The entries of one party. -/
def ofParty (who : α → Nat) (v : Nat) (l : List α) : List α := l.filter fun a => who a = v

theorem ofParty_concat (who : α → Nat) (v : Nat) (l : List α) (x : α) :
    ofParty who v (l ++ [x]) = ofParty who v l ++ (if who x = v then [x] else []) := by
  unfold ofParty
  rw [List.filter_append, List.filter_singleton]
  by_cases h : who x = v
  · simp [h]
  · simp [h]

/-- **Totals over the parties are totals over the trace.** -/
theorem sum_parties {M : Type} [AddCommMonoid M] (who : α → Nat) (n : Nat) (w : α → M)
    (l : List α) (h : ∀ a ∈ l, who a < n) :
    ((List.range n).map fun v => ((ofParty who v l).map w).sum).sum = (l.map w).sum := by
  induction l with
  | nil => simp [ofParty]
  | cons a l ih =>
      have hsplit : ∀ v, ((ofParty who v (a :: l)).map w).sum
          = (if v = who a then w a else 0) + ((ofParty who v l).map w).sum := by
        intro v
        unfold ofParty
        by_cases hv : who a = v
        · simp [hv]
        · simp [hv, Ne.symm hv]
      -- `a` has exactly one party among the first `n`
      have hone : ((List.range n).map fun v => if v = who a then w a else 0).sum = w a := by
        rw [List.sum_map_eq_nsmul_single (who a) _ fun v hv _ => if_neg hv,
            List.count_eq_one_of_mem List.nodup_range
              (List.mem_range.mpr (h a (List.mem_cons_self ..))), one_nsmul, if_pos rfl]
      rw [List.map_congr_left fun v _ => hsplit v, List.sum_map_add, hone,
          ih fun b hb => h b (List.mem_cons_of_mem a hb), List.map_cons, List.sum_cons]

theorem countP_eq_sum (p : α → Bool) (l : List α) :
    l.countP p = (l.map fun a => if p a then 1 else 0).sum := by
  induction l with
  | nil => rfl
  | cons a l ih => rw [List.countP_cons, List.map_cons, List.sum_cons, ih, Nat.add_comm]

/-- The same for numbers of entries. -/
theorem sum_countP_parties (who : α → Nat) (n : Nat) (p : α → Bool) (l : List α)
    (h : ∀ a ∈ l, who a < n) :
    ((List.range n).map fun v => (ofParty who v l).countP p).sum = l.countP p := by
  rw [List.map_congr_left fun v _ => countP_eq_sum p (ofParty who v l), countP_eq_sum p l]
  exact sum_parties who n _ l h

/-- What the parties hold, when one of them changes. -/
theorem flatMap_range_update {γ : Type} (f : γ → List β) (g : Nat → γ) {n v : Nat} (hv : v < n)
    (x : γ) :
    (((List.range n).flatMap fun u => f (Function.update g v x u)) ++ f (g v)).Perm
      (((List.range n).flatMap fun u => f (g u)) ++ f x) := by
  have hperm : (List.range n).Perm (v :: (List.range n).erase v) :=
    List.perm_cons_erase (List.mem_range.mpr hv)
  have hrest : ((List.range n).erase v).flatMap (fun u => f (Function.update g v x u))
      = ((List.range n).erase v).flatMap fun u => f (g u) := by
    apply List.flatMap_congr
    intro u hu
    rw [Function.update_of_ne (List.nodup_range.mem_erase_iff.mp hu).1]
  have hnew := hperm.flatMap_right fun u => f (Function.update g v x u)
  have hold := hperm.flatMap_right fun u => f (g u)
  rw [List.flatMap_cons, Function.update_self, hrest] at hnew
  rw [List.flatMap_cons] at hold
  refine (hnew.append_right (f (g v))).trans (List.Perm.trans ?_ (hold.append_right (f x)).symm)
  -- the changed party's old and new holdings trade places
  generalize ((List.range n).erase v).flatMap (fun u => f (g u)) = rest
  rw [List.append_assoc, List.append_assoc]
  exact List.perm_append_comm.trans ((List.perm_append_comm.append_right (f x)).trans
    (by rw [List.append_assoc]))

/-- Parties that hold nothing do not count. -/
theorem flatMap_range_extend {f : Nat → List β} {n n' : Nat} (hle : n ≤ n')
    (h : ∀ u, n ≤ u → f u = []) : (List.range n').flatMap f = (List.range n).flatMap f := by
  obtain ⟨k, rfl⟩ := Nat.exists_eq_add_of_le hle
  rw [List.range_add, List.flatMap_append]
  have hnil : ((List.range k).map fun i => n + i).flatMap f = [] := by
    rw [List.flatMap_eq_nil_iff]
    intro u hu
    obtain ⟨i, _, rfl⟩ := List.mem_map.mp hu
    exact h (n + i) (Nat.le_add_right n i)
  rw [hnil, List.append_nil]

/-- Every entry has one key. -/
theorem sum_countP_keys {κ : Type} [DecidableEq κ] (key : α → κ) {ks : List κ} (hks : ks.Nodup)
    (l : List α) (h : ∀ a ∈ l, key a ∈ ks) :
    (ks.map fun k => l.countP fun a => key a = k).sum = l.length := by
  induction l with
  | nil => simp
  | cons a l ih =>
      have hone : (ks.map fun k => if key a = k then 1 else 0).sum = 1 := by
        rw [List.sum_map_eq_nsmul_single (key a) _ fun k hk _ => if_neg (Ne.symm hk),
            List.count_eq_one_of_mem hks (h a List.mem_cons_self), one_nsmul, if_pos rfl]
      simp only [List.countP_cons, decide_eq_true_eq, List.length_cons]
      rw [List.sum_map_add, hone, ih fun b hb => h b (List.mem_cons_of_mem a hb)]

/-- **The relay.**  When every entry emits a function of the previous entry of
its party, a party emits a function of its consecutive pairs. -/
theorem flatMap_pairs (who : α → Nat) (f : α → List β) (g : Option α → α → List β)
    (hfirst : ∀ a, g none a = []) (v : Nat) (l : List α)
    (h : Along (fun past a => f a = g (ofParty who (who a) past).getLast? a) l) :
    (ofParty who v l).flatMap f = (pairs (ofParty who v l)).flatMap fun ab => g (some ab.1) ab.2 := by
  induction l using List.reverseRecOn with
  | nil => rfl
  | append_singleton l x ih =>
      obtain ⟨hl, hx⟩ := (along_concat _ l x).mp h
      rw [ofParty_concat]
      by_cases hv : who x = v
      · rw [if_pos hv, pairs_concat, List.flatMap_append, List.flatMap_append, ih hl]
        congr 1
        -- the last entry of the party is in the past of `x`, and pairs with it
        rw [List.flatMap_singleton, hx, hv]
        cases (ofParty who v l).getLast? with
        | none => exact hfirst x
        | some a => simp
      · rw [if_neg hv, List.append_nil, ih hl]

/-- Number of consecutive pairs of one party in a relation, over `n` parties. -/
def pairCount (who : α → Nat) (n : Nat) (p : α → α → Bool) (l : List α) : Nat :=
  ((List.range n).map fun v => (pairs (ofParty who v l)).countP fun ab => p ab.1 ab.2).sum

/-- A relation that no entry has with a later one. -/
theorem pairCount_eq_zero (who : α → Nat) (n : Nat) (p : α → α → Bool) (l : List α)
    (h : ∀ a ∈ l, ∀ b, p a b = false) : pairCount who n p l = 0 := by
  unfold pairCount
  apply List.sum_eq_zero
  intro c hc
  obtain ⟨v, _, rfl⟩ := List.mem_map.mp hc
  rw [List.countP_eq_zero]
  intro ab hab
  obtain ⟨a, b⟩ := ab
  have ha : a ∈ ofParty who v l := (List.of_mem_zip hab).1
  rw [h a (List.mem_of_mem_filter ha) b]
  decide

/-- One more entry makes one more pair, or none. -/
theorem pairCount_concat (who : α → Nat) (n : Nat) (p : α → α → Bool) (l : List α) {x : α}
    (hx : who x < n) :
    pairCount who n p (l ++ [x])
      = pairCount who n p l
        + (if (ofParty who (who x) l).getLast?.any (fun a => p a x) then 1 else 0) := by
  -- only the party of `x` has a new pair
  have hparty : ∀ v, (pairs (ofParty who v (l ++ [x]))).countP (fun ab => p ab.1 ab.2)
      = (pairs (ofParty who v l)).countP (fun ab => p ab.1 ab.2)
        + (if v = who x then
            (if (ofParty who (who x) l).getLast?.any (fun a => p a x) then 1 else 0) else 0) := by
    intro v
    rw [ofParty_concat]
    by_cases hv : who x = v
    · rw [if_pos hv, if_pos hv.symm, hv, pairs_concat, List.countP_append]
      cases (ofParty who v l).getLast? with
      | none => rfl
      | some a => simp [List.countP_singleton]
    · rw [if_neg hv, if_neg (Ne.symm hv), List.append_nil, Nat.add_zero]
  unfold pairCount
  rw [List.map_congr_left fun v _ => hparty v, List.sum_map_add,
      List.sum_map_eq_nsmul_single (who x) _ fun v hv _ => if_neg hv,
      List.count_eq_one_of_mem List.nodup_range (List.mem_range.mpr hx), one_nsmul, if_pos rfl]

/-- The pairs, counted entry by entry. -/
theorem pairCount_eq_withPast (who : α → Nat) (n : Nat) (p : α → α → Bool) (l : List α)
    (hwho : ∀ a ∈ l, who a < n) :
    pairCount who n p l
      = (withPast l).countP fun e =>
          (ofParty who (who e.2) e.1).getLast?.any fun a => p a e.2 := by
  induction l using List.reverseRecOn with
  | nil => simp [pairCount, ofParty, pairs, withPast, withPastFrom]
  | append_singleton l x ih =>
      rw [pairCount_concat who n p l (hwho x (List.mem_append_right l (List.mem_singleton_self x))),
          ih fun a ha => hwho a (List.mem_append_left _ ha), withPast_concat, List.countP_append,
          List.countP_singleton]

/-- **The relay, counted**: when a pair emits one `q` or none, the trace emits
as many as there are pairs that do. -/
theorem countP_relay (who : α → Nat) (n : Nat) (f : α → List β) (g : Option α → α → List β)
    (hfirst : ∀ a, g none a = []) (l : List α) (hwho : ∀ a ∈ l, who a < n)
    (h : Along (fun past a => f a = g (ofParty who (who a) past).getLast? a) l)
    (q : β → Bool) (p : α → α → Bool)
    (hp : ∀ a b, (g (some a) b).countP q = if p a b then 1 else 0) :
    (l.flatMap f).countP q = pairCount who n p l := by
  induction l using List.reverseRecOn with
  | nil => simp [pairCount, ofParty, pairs]
  | append_singleton l x ih =>
      obtain ⟨hl, hx⟩ := (along_concat _ l x).mp h
      rw [List.flatMap_append, List.countP_append, List.flatMap_singleton,
          ih (fun a ha => hwho a (List.mem_append_left _ ha)) hl,
          pairCount_concat who n p l
            (hwho x (List.mem_append_right l (List.mem_singleton_self x))), hx]
      cases (ofParty who (who x) l).getLast? with
      | none => rw [hfirst]; rfl
      | some a => rw [hp]; rfl

end QemuProfiler.Lib
