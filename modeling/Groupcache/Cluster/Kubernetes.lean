import Groupcache.Cluster.Convergence

/-!
# Discovery by the Kubernetes API (`examples/kubernetes-service-discovery`)

The instances are the pods with the backend's label, on port 3000, that have an
address by the time they are listed. A pod runs one node, on its own address.
Where the API fails, `pull_instances` does not return the error but panics, and
the task that has called it is lost: nothing is logged, and the node keeps the
peers it knows for good, whatever handles of the cache there are. The other
nodes come to agree (`kubernetes_converges`).
-/

namespace Groupcache

open Transition

/-! ## Pods and their addresses -/

/-- `std::net::IpAddr` -/
inductive IpAddr where
  | v4 (ip : Ipv4Addr)
  | v6 (ip : Ipv6Addr)
  deriving DecidableEq

def SocketAddr.new : IpAddr → UInt16 → SocketAddr
  | .v4 ip, port => .v4 ip port
  | .v6 ip, port => .v6 ip port 0 0

/-- `FromStr` of an IP address. -/
class IpAddrFromStr where
  parse : String → Option IpAddr

structure PodStatus where
  podIp : Option String

structure Pod where
  status : Option PodStatus

def Pod.podIp (pod : Pod) : Option String :=
  pod.status.bind PodStatus.podIp

namespace Kubernetes

/-- The instance on a pod. -/
def instance? [IpAddrFromStr] (pod : Pod) : Option GroupcachePeer := do
  let podIp ← pod.podIp
  let ip ← IpAddrFromStr.parse podIp
  return ⟨.new ip 3000⟩

/-- `pull_instances`, from the answer of the API on; `none` when it panics. -/
def pullInstances [IpAddrFromStr] : Except String (List Pod) → Option (Finset GroupcachePeer)
  | .ok pods => some (pods.filterMap instance?).toFinset
  | .error _ => none

/-- The address that `main` reads from `K8S_POD_IP` and `K8S_POD_PORT`. -/
def addr [Platform] (podIp podPort : String) : Option GroupcachePeer :=
  (Platform.parse (podIp ++ ":" ++ podPort)).map GroupcachePeer.mk

/-- The nodes that the pods run, with the port of `deployment.yaml`. -/
def nodes [Platform] (pods : List Pod) : Finset GroupcachePeer :=
  (pods.filterMap fun pod => pod.podIp.bind (addr · "3000")).toFinset

variable [Platform] [IpAddrFromStr]

/-- An IPv4 address is the host of a socket address, as `std` parses both. -/
def ParsesIpv4 : Prop :=
  ∀ text ip, IpAddrFromStr.parse text = some (.v4 ip) →
    Platform.parse (text ++ ":" ++ "3000") = some (.v4 ip 3000)

/-- The pods that have an address have an IPv4 address. -/
def Ipv4 (pods : List Pod) : Prop :=
  ∀ pod ∈ pods, ∀ podIp, pod.podIp = some podIp →
    ∃ ip, IpAddrFromStr.parse podIp = some (.v4 ip)

/-- Every node is found, under its own address, and no others. -/
theorem pullInstances_nodes (hparse : ParsesIpv4) {pods : List Pod} (hv4 : Ipv4 pods) :
    pullInstances (.ok pods) = some (nodes pods) := by
  refine congrArg some ?_
  have heach : pods.filterMap instance? =
      pods.filterMap fun pod => pod.podIp.bind (addr · "3000") := by
    refine List.filterMap_congr fun pod hpod => ?_
    cases hip : pod.podIp with
    | none => simp [instance?, hip]
    | some podIp =>
        obtain ⟨ip, hparsed⟩ := hv4 pod hpod podIp hip
        have haddr := hparse podIp ip hparsed
        simp [instance?, hip, hparsed, addr, haddr, SocketAddr.new]
  rw [nodes, heach]

end Kubernetes

/-! ## Nodes that list pods -/

variable [Platform] [IpAddrFromStr] {Value : Type} [ValueBounds Value] {U : Set GroupcachePeer}
  {M : Finset GroupcachePeer} {n : GroupcachePeer}

/-- A deployment whose pulls list pods, and the nodes whose task has panicked
in one. -/
structure KubernetesDeployment (Value : Type) where
  deployment : Deployment Value
  panicked : GroupcachePeer → Bool

inductive KubernetesAction (Value : Type) where
  | run (action : DeploymentAction Value)
  /-- The API answers the node's task; `attempt` is what connecting to each
  peer comes to after that. -/
  | list (node : GroupcachePeer) (answer : Except String (List Pod))
      (attempt : GroupcachePeer → ConnectOutcome)

/-- A piece of what the task of node `n` does. -/
def KubernetesAction.ofTask (n : GroupcachePeer) : KubernetesAction Value → Bool
  | .run (.process m action) => m = n && action.ofTask
  | .run _ => false
  | .list m _ _ => m = n

namespace KubernetesDeployment

def start : KubernetesDeployment Value where
  deployment := .start
  panicked _ := false

variable (s : KubernetesDeployment Value)

def step : KubernetesAction Value → Option (KubernetesDeployment Value)
  -- what is pulled is what the API lists
  | .run (.process _ (.pulled ..)) => none
  | .run (.process n action) =>
      if s.panicked n && action.ofTask then none
      else (s.deployment.step (.process n action)).map fun deployment => { s with deployment }
  | .run action => (s.deployment.step action).map fun deployment => { s with deployment }
  | .list n answer attempt =>
      if s.panicked n then none
      else
        match Kubernetes.pullInstances answer with
        | some instances =>
            (s.deployment.step (.process n (.pulled (.ok instances) attempt))).map
              fun deployment => { s with deployment }
        | none =>
            match s.deployment.task n with
            | .pulling => some { s with panicked := Function.update s.panicked n true }
            | _ => none

variable {s} {t : KubernetesDeployment Value} {a : KubernetesAction Value}

/-- A step is one of the deployment's, or a panic. -/
theorem step_cases (hs : s.step a = some t) :
    (∃ action, a = .run action ∧ (∀ n pull attempt, action ≠ .process n (.pulled pull attempt)) ∧
      (∀ n x, action = .process n x → s.panicked n = true → x.ofTask = false) ∧
      ∃ d, s.deployment.step action = some d ∧ t = { s with deployment := d }) ∨
    (∃ n pods instances attempt, a = .list n (.ok pods) attempt ∧ s.panicked n = false ∧
      Kubernetes.pullInstances (.ok pods) = some instances ∧
      ∃ d, s.deployment.step (.process n (.pulled (.ok instances) attempt)) = some d ∧
        t = { s with deployment := d }) ∨
    ∃ n e attempt, a = .list n (.error e) attempt ∧
      t = { s with panicked := Function.update s.panicked n true } := by
  cases a with
  | list n answer attempt =>
      simp only [step] at hs
      split at hs
      · cases hs
      · rename_i hpan
        cases answer with
        | ok pods =>
            obtain ⟨d, hd, rfl⟩ := Option.map_eq_some_iff.mp hs
            have hgoes := Bool.eq_false_iff.mpr hpan
            exact .inr (.inl ⟨n, pods, _, attempt, rfl, hgoes, rfl, d, hd, rfl⟩)
        | error e =>
            simp only [Kubernetes.pullInstances] at hs
            split at hs <;> cases hs
            exact .inr (.inr ⟨n, e, attempt, rfl, rfl⟩)
  | run action =>
      refine .inl ⟨action, rfl, ?_⟩
      cases action with
      | run action =>
          obtain ⟨d, hd, rfl⟩ := Option.map_eq_some_iff.mp hs
          exact ⟨fun _ _ _ h => (by cases h), fun _ _ h => (by cases h), d, hd, rfl⟩
      | process n x =>
          have hpull : ∀ pull attempt, x ≠ .pulled pull attempt := by
            rintro pull attempt rfl
            cases hs
          have hstep : s.step (.run (.process n x)) = if s.panicked n && x.ofTask then none
              else (s.deployment.step (.process n x)).map fun deployment =>
                { s with deployment } := by
            cases x with
            | pulled pull attempt => exact absurd rfl (hpull pull attempt)
            | _ => rfl
          rw [hstep] at hs
          split at hs
          · cases hs
          · rename_i hgo
            obtain ⟨d, hd, rfl⟩ := Option.map_eq_some_iff.mp hs
            refine ⟨fun m pull attempt h => ?_, fun m y h hpan => ?_, d, hd, rfl⟩
            · cases h
              exact hpull pull attempt rfl
            · cases h
              simpa [hpan] using hgo

/-- The peers of `U` run the nodes, and the pods listed are theirs. -/
def Listing (U : Set GroupcachePeer) (s : KubernetesDeployment Value) :
    KubernetesAction Value → Prop
  | .run action => s.deployment.Discovering U action
  | .list n answer attempt => n ∈ U ∧ (∀ p, attempt p ≠ .panicked) ∧
      ∀ instances, Kubernetes.pullInstances answer = some instances → ∀ p ∈ instances, p ∈ U

/-- A list that a member's task gets is of pods that run the members, and
these can be connected to. -/
def Serving (U : Set GroupcachePeer) (M : Finset GroupcachePeer) (s : KubernetesDeployment Value)
    (a : KubernetesAction Value) : Prop :=
  s.Listing U a ∧
    match a with
    | .run _ => True
    | .list n answer attempt => n ∈ M → ∀ pods, answer = .ok pods →
        Kubernetes.Ipv4 pods ∧ Kubernetes.nodes pods = M ∧ ∀ p ∈ M, (attempt p).succeeds = true

/-- A step of the task of node `n`. -/
def taskOf (n : GroupcachePeer) (s : KubernetesDeployment Value) : KubernetesAction Value → Bool
  | .run action => s.deployment.taskOf n action
  | .list m (.ok _) _ => m = n
  | .list _ (.error _) _ => false

/-! ## What they run -/

/-- **What the nodes run is a run of a deployment.** -/
theorem reaches_deployment (h : Reaches step (Listing U) s t) :
    Reaches Deployment.step (Deployment.Discovering U) s.deployment t.deployment := by
  refine h.project KubernetesDeployment.deployment fun s t a hg hs => ?_
  rcases step_cases hs with ⟨action, rfl, _, _, d, hd, rfl⟩ |
    ⟨n, pods, instances, attempt, rfl, _, hpods, d, hd, rfl⟩ | ⟨n, e, attempt, rfl, rfl⟩
  · exact .single hg hd
  · exact .single (a := .process n (.pulled (.ok instances) attempt))
      ⟨hg.1, hg.2.1, hg.2.2 instances hpods⟩ hd
  · exact .refl

/-- And one whose pulls find the members. -/
theorem reaches_converging (hparse : Kubernetes.ParsesIpv4) {k : Nat}
    (h : Reaches (counting step (taskOf n)) (fun s => s.1.Serving U M) (s, 0) (t, k)) :
    Reaches (counting Deployment.step (Deployment.taskOf n)) (fun d => d.1.Converging U M)
      (s.deployment, 0) (t.deployment, k) := by
  refine h.project (fun x : KubernetesDeployment Value × Nat => (x.1.deployment, x.2)) ?_
  intro x y a hg hs
  obtain ⟨t, ht, rfl⟩ := Option.map_eq_some_iff.mp hs
  obtain ⟨s, j⟩ := x
  rcases step_cases ht with ⟨action, rfl, hpull, _, d, hd, rfl⟩ |
    ⟨m, pods, instances, attempt, rfl, _, hpods, d, hd, rfl⟩ | ⟨m, e, attempt, rfl, rfl⟩
  · refine .single (a := action) ⟨hg.1, ?_⟩ (Option.map_eq_some_iff.mpr ⟨d, hd, rfl⟩)
    cases action with
    | run action => trivial
    | process m x =>
        cases x with
        | pulled pull attempt => exact absurd rfl (hpull m pull attempt)
        | _ => exact fun _ => trivial
  · obtain ⟨⟨hm, hends, hU⟩, hserves⟩ := hg
    refine .single (a := .process m (.pulled (.ok instances) attempt))
      ⟨⟨hm, hends, hU instances hpods⟩, fun hmem => ?_⟩
      (Option.map_eq_some_iff.mpr ⟨d, hd, by simp [taskOf, Deployment.taskOf,
        ProcessAction.ofTask]⟩)
    obtain ⟨hv4, hnodes, hsucc⟩ := hserves hmem pods rfl
    obtain rfl : instances = M := by
      rw [Kubernetes.pullInstances_nodes hparse hv4, hnodes] at hpods
      exact (Option.some.inj hpods).symm
    exact ⟨instances, rfl, Finset.insert_eq_of_mem hmem, hsucc⟩
  · exact .refl

/-- The task of node `n` is gone: nothing that it does is enabled. -/
def Lost (s : KubernetesDeployment Value) (n : GroupcachePeer) : Prop :=
  ∀ a, KubernetesAction.ofTask n a = true → s.step a = none

theorem lost_of_panicked (hpan : s.panicked n = true) : s.Lost n := by
  intro a ha
  cases a with
  | list m answer attempt =>
      obtain rfl : m = n := of_decide_eq_true ha
      simp [step, hpan]
  | run action =>
      cases action with
      | run action => cases ha
      | process m action =>
          simp only [KubernetesAction.ofTask, Bool.and_eq_true, decide_eq_true_eq] at ha
          obtain ⟨rfl, htask⟩ := ha
          cases action <;> simp [step, hpan, htask]

/-- Where the task has panicked, a step changes nothing of the process but the
handles. -/
theorem step_panicked (hg : s.Listing U a) (hs : s.step a = some t) (hpan : s.panicked n = true) :
    t.panicked n = true ∧ t.deployment.processOf n =
      { s.deployment.processOf n with handles := t.deployment.handles n } := by
  have hframe : ∀ t : KubernetesDeployment Value,
      t.deployment.processOf n = s.deployment.processOf n →
        t.deployment.processOf n =
          { s.deployment.processOf n with handles := t.deployment.handles n } := by
    intro t h
    rw [← h]
    rfl
  rcases step_cases hs with ⟨action, rfl, _, hfree, d, hd, rfl⟩ |
    ⟨m, pods, instances, attempt, rfl, hgoes, _, d, hd, rfl⟩ | ⟨m, e, attempt, rfl, rfl⟩
  · refine ⟨hpan, ?_⟩
    rcases Deployment.step_cases hd with ⟨_, _, _, _, _, hsame⟩ | ⟨m, x, p, rfl, hp, rfl⟩
    · exact hframe _ (hsame n)
    · by_cases hnm : n = m
      · subst hnm
        -- only the handles can change
        show (s.deployment.setProcess n p).processOf n = _
        rw [Deployment.processOf_setProcess, if_pos rfl]
        have hidle := hfree n x rfl hpan
        obtain ⟨_, hund, _⟩ := hg
        cases x with
        | clone | drop =>
            simp only [Process.step] at hp
            split at hp <;> cases hp
            simp [Deployment.setProcess]
        | call action => exact hund.elim
        | _ => cases hidle
      · exact hframe _ (by rw [Deployment.processOf_setProcess, if_neg hnm])
  · refine ⟨hpan, hframe _ ?_⟩
    obtain ⟨p, _, rfl⟩ := Option.map_eq_some_iff.mp hd
    rw [Deployment.processOf_setProcess, if_neg]
    rintro rfl
    cases hgoes.symm.trans hpan
  · refine ⟨?_, rfl⟩
    show Function.update s.panicked m true n = true
    rw [Function.update_apply]
    split
    · rfl
    · exact hpan

/-- **A failing list ends the discovery of a node**: no piece of its task is
enabled any more, and of its process only the handles can change. -/
theorem reaches_lost {e : String} {attempt : GroupcachePeer → ConnectOutcome}
    {s₀ : KubernetesDeployment Value} (hlist : s₀.step (.list n (.error e) attempt) = some s)
    (h : Reaches step (Listing U) s t) :
    t.Lost n ∧ t.deployment.processOf n =
      { s₀.deployment.processOf n with handles := t.deployment.handles n } := by
  have hstart : s.panicked n = true ∧ s.deployment = s₀.deployment := by
    rcases step_cases hlist with ⟨_, ha, _⟩ | ⟨_, _, _, _, ha, _⟩ | ⟨_, _, _, ha, rfl⟩
    · cases ha
    · cases ha
    · cases ha
      exact ⟨Function.update_self .., rfl⟩
  have hend : t.panicked n = true ∧ t.deployment.processOf n =
      { s₀.deployment.processOf n with handles := t.deployment.handles n } := by
    refine h.invariant (I := fun t => t.panicked n = true ∧ t.deployment.processOf n =
      { s₀.deployment.processOf n with handles := t.deployment.handles n })
      ⟨hstart.1, by rw [hstart.2]; rfl⟩ ?_
    intro t t' a hi hg hs
    obtain ⟨hpan', hsame⟩ := step_panicked hg hs hi.1
    exact ⟨hpan', by rw [hsame, hi.2]⟩
  exact ⟨lost_of_panicked hend.1, hend.2⟩

end KubernetesDeployment

/-- **Discovery by the API converges.** Once each member's task has made more
than nine steps, where the pods listed run the members and these can be
connected to, the members find one owner of every key. A node whose list has
failed has lost its task, and keeps the peers and the log that it had then. -/
theorem kubernetes_converges (hparse : Kubernetes.ParsesIpv4) (hU : Addressable U)
    {s₀ : KubernetesDeployment Value}
    (h₀ : Reaches KubernetesDeployment.step (KubernetesDeployment.Listing U) .start s₀) :
    (∀ (M : Finset GroupcachePeer) s key, (∀ n ∈ M, n ∈ U) → M.Nonempty →
      (∀ n ∈ M, ∃ k, 9 < k ∧ Reaches
        (counting KubernetesDeployment.step (KubernetesDeployment.taskOf n))
        (fun s => s.1.Serving U M) (s₀, 0) (s, k)) →
      ∃ owner, Owner M key owner ∧
        ∀ n ∈ M, Finds n (s.deployment.cluster.node n).topology.routing key owner) ∧
    ∀ n e attempt s₁ s, s₀.step (.list n (.error e) attempt) = some s₁ →
      Reaches KubernetesDeployment.step (KubernetesDeployment.Listing U) s₁ s →
      s.Lost n ∧ s.deployment.processOf n =
        { s₀.deployment.processOf n with handles := s.deployment.handles n } := by
  refine ⟨fun M s key hM hne h => ?_, fun n e attempt s₁ s hlist h => ?_⟩
  · have hmoves : ∀ n ∈ M, ∃ k, 9 < k ∧ Reaches
        (counting Deployment.step (Deployment.taskOf n)) (fun d => d.1.Converging U M)
        (s₀.deployment, 0) (s.deployment, k) := by
      intro n hn
      obtain ⟨k, hk, hrun⟩ := h n hn
      exact ⟨k, hk, KubernetesDeployment.reaches_converging hparse hrun⟩
    obtain ⟨hagrees, hreach⟩ :=
      Deployment.reaches_agrees hne (KubernetesDeployment.reaches_deployment h₀) hmoves
    exact hagrees.one_owner hU hM hne hreach key
  · exact KubernetesDeployment.reaches_lost hlist h

/-! ## Three pods -/

namespace Concrete

/-- The text of an address, as the host of a socket address. -/
@[reducible] def fromStr : IpAddrFromStr where
  parse text :=
    match parse (text ++ ":" ++ "3000") with
    | some (.v4 ip port) => if port = 3000 then some (.v4 ip) else none
    | _ => none

/-- The pods at `127.0.0.k`. -/
def pods (ks : List UInt8) : List Pod :=
  ks.map fun k => { status := some { podIp := some (String.ofList (showIp ⟨127, 0, 0, k⟩)) } }

/-- The node on the pod at `127.0.0.k`. -/
def onPod (k : UInt8) : GroupcachePeer := ⟨.v4 ⟨127, 0, 0, k⟩ 3000⟩

omit [Platform] [IpAddrFromStr] in
theorem addressable_onPod : @Addressable host {p | p ∈ [1, 2, 3].map onPod} := by
  refine addressable_of_injOn (fun p hp => ?_) ?_
  · obtain ⟨k, _, rfl⟩ := List.mem_map.mp hp
    exact ⟨_, 3000, rfl⟩
  · have hnodup : ((table ([1, 2, 3].map onPod)).map checksum).Nodup := by decide +kernel
    exact fun text htext text' htext' => List.inj_on_of_nodup_map hnodup htext htext'

omit [Platform] [IpAddrFromStr] in
theorem parse_host (ip : Ipv4Addr) :
    parse (String.ofList (showIp ip) ++ ":" ++ "3000") = some (.v4 ip 3000) := by
  have htext : String.ofList (showIp ip) ++ ":" ++ "3000" = display (.v4 ip 3000) := by
    apply String.toList_inj.mp
    have hdigits : digits 3000 = ['3', '0', '0', '0'] := by decide
    simp [display, List.intercalate, hdigits]
  rw [htext]
  exact parse_display ip 3000

omit [Platform] [IpAddrFromStr] in
theorem parsesIpv4 : @Kubernetes.ParsesIpv4 host fromStr := by
  intro text ip h
  simp only [IpAddrFromStr.parse] at h
  show parse (text ++ ":" ++ "3000") = some (.v4 ip 3000)
  split at h
  · rename_i ip' port hparse
    split at h <;> cases h
    rename_i hport
    rw [hparse, hport]
  · cases h

omit [Platform] [IpAddrFromStr] in
theorem fromStr_showIp (ip : Ipv4Addr) :
    fromStr.parse (String.ofList (showIp ip)) = some (.v4 ip) := by
  show (match parse (String.ofList (showIp ip) ++ ":" ++ "3000") with
    | some (.v4 ip port) => if port = 3000 then some (IpAddr.v4 ip) else none
    | _ => none) = some (.v4 ip)
  rw [parse_host]
  rfl

section Pods

variable {k : UInt8} {ks : List UInt8} {added removed : List GroupcachePeer}

omit [Platform] [IpAddrFromStr] in
theorem ipv4_pods : @Kubernetes.Ipv4 fromStr (pods ks) := by
  intro pod hpod podIp hip
  obtain ⟨k, _, rfl⟩ := List.mem_map.mp hpod
  cases hip
  exact ⟨_, fromStr_showIp _⟩

omit [Platform] [IpAddrFromStr] in
theorem nodes_pods : @Kubernetes.nodes host (pods ks) = (ks.map onPod).toFinset := by
  let _ : Platform := host
  have haddr : ∀ ip, Kubernetes.addr (String.ofList (showIp ip)) "3000" =
      some ⟨.v4 ip 3000⟩ := fun ip => congrArg (Option.map GroupcachePeer.mk) (parse_host ip)
  have hnodes : (pods ks).filterMap (fun pod => pod.podIp.bind (Kubernetes.addr · "3000")) =
      ks.map onPod := by
    rw [pods, List.filterMap_map, ← List.filterMap_eq_map]
    exact List.filterMap_congr fun k _ => haddr _
  rw [Kubernetes.nodes, hnodes]

/-- A whole turn of the task on pod `k`, which lists the pods `ks`. -/
def listOf (k : UInt8) (ks : List UInt8) (added removed : List GroupcachePeer) :
    List (KubernetesAction UInt8) :=
  .run (.process (onPod k) .upgrade) :: .run (.process (onPod k) .elapsed) ::
    .list (onPod k) (.ok (pods ks)) (fun _ => .connected 0) ::
    (callOf (onPod k) added removed).map .run

omit [Platform] [IpAddrFromStr] in
theorem listing_listOf (hk : onPod k ∈ U) (hks : ∀ p ∈ ks.map onPod, p ∈ U) :
    let _ : Platform := host
    let _ : IpAddrFromStr := fromStr
    ∀ a ∈ listOf k ks added removed, ∀ s : KubernetesDeployment UInt8, s.Listing U a := by
  intro _ _ a ha s
  simp only [listOf, List.mem_cons] at ha
  rcases ha with rfl | rfl | rfl | ha
  · exact ⟨hk, trivial, trivial⟩
  · exact ⟨hk, trivial, trivial⟩
  · refine ⟨hk, nofun, fun instances hinst p hp => hks p ?_⟩
    rw [Kubernetes.pullInstances_nodes parsesIpv4 ipv4_pods, nodes_pods] at hinst
    cases hinst
    exact List.mem_toFinset.mp hp
  · obtain ⟨action, haction, rfl⟩ := List.mem_map.mp ha
    exact discovering_callOf hk action haction s.deployment

omit [Platform] [IpAddrFromStr] in
/-- A turn that lists the pods of the members. -/
theorem serving_listOf (hk : onPod k ∈ U) (hks : ∀ p ∈ ks.map onPod, p ∈ U)
    (hM : (ks.map onPod).toFinset = M) :
    let _ : Platform := host
    let _ : IpAddrFromStr := fromStr
    ∀ a ∈ listOf k ks added removed, ∀ s : KubernetesDeployment UInt8, s.Serving U M a := by
  intro _ _ a ha s
  refine ⟨listing_listOf hk hks a ha s, ?_⟩
  simp only [listOf, List.mem_cons] at ha
  rcases ha with rfl | rfl | rfl | ha
  · trivial
  · trivial
  · intro _ listed hlisted
    cases hlisted
    exact ⟨ipv4_pods, nodes_pods.trans hM, fun _ _ => rfl⟩
  · obtain ⟨action, _, rfl⟩ := List.mem_map.mp ha
    trivial

end Pods

/-- The task on pod 3 has found all three, and is at its next list. -/
def upToList : List (KubernetesAction UInt8) :=
  listOf 3 [1, 2, 3] [onPod 1, onPod 2, onPod 3] [] ++ (listOf 3 [] [] []).take 2

/-- The tasks on pods 1 and 2 find these two. -/
def others : List (KubernetesAction UInt8) :=
  listOf 1 [1, 2] [onPod 1, onPod 2] [] ++ listOf 2 [1, 2] [onPod 2, onPod 1] [] ++
    (listOf 1 [1, 2] [] []).take 4 ++ (listOf 2 [1, 2] [] []).take 4

end Concrete

open Concrete

omit [Platform] [IpAddrFromStr] [ValueBounds Value] in
/-- The list on pod 3 fails, which knows all three pods. The tasks on the
others list these two. -/
theorem kubernetes_converges_sample :
    let _ : Platform := host
    let _ : IpAddrFromStr := fromStr
    let _ : ValueBounds UInt8 := messagePack
    let M : Finset GroupcachePeer := {onPod 1, onPod 2}
    ∃ s₀ s : KubernetesDeployment UInt8, (∃ owner, Owner M "key" owner ∧
        ∀ n ∈ M, Finds n (s.deployment.cluster.node n).topology.routing "key" owner) ∧
      s.Lost (onPod 3) ∧ s.deployment.processOf (onPod 3) =
        { s₀.deployment.processOf (onPod 3) with handles := s.deployment.handles (onPod 3) } ∧
      (∀ n ∈ M, (s.deployment.cluster.node n).topology.routing.peerSet = M) ∧
      (s.deployment.cluster.node (onPod 3)).topology.routing.peerSet = insert (onPod 3) M := by
  intro _ _ _ M
  let U : Set GroupcachePeer := {p | p ∈ [1, 2, 3].map onPod}
  obtain ⟨s₀, hs₀, s₁, hs₁, s, hs, hpeers⟩ :
      ∃ s₀ ∈ upToList.foldlM KubernetesDeployment.step
        (KubernetesDeployment.start : KubernetesDeployment UInt8),
      ∃ s₁ ∈ s₀.step (.list (onPod 3) (.error "500") fun _ => .connected 0),
      ∃ s ∈ others.foldlM KubernetesDeployment.step s₁,
      (∀ n ∈ M, (s.deployment.cluster.node n).topology.routing.peerSet = M) ∧
      (s.deployment.cluster.node (onPod 3)).topology.routing.peerSet = insert (onPod 3) M := by
    decide +kernel +revert
  have hk : ∀ k ∈ [1, 2, 3], onPod k ∈ U := fun k hmem => List.mem_map_of_mem hmem
  have hM : ∀ n ∈ M, n ∈ U := by decide
  have hbefore : ∀ a ∈ upToList, ∀ s : KubernetesDeployment UInt8, s.Listing U a := by
    simp only [upToList, List.forall_mem_append]
    refine ⟨listing_listOf (hk 3 (by decide)) fun _ hp => hp, fun a ha => ?_⟩
    exact listing_listOf (hk 3 (by decide)) (by simp) a (List.mem_of_mem_take ha)
  have hfailing : ∀ s : KubernetesDeployment UInt8,
      s.Serving U M (.list (onPod 3) (.error "500") fun _ => .connected 0) :=
    fun s => ⟨⟨hk 3 (by decide), nofun, nofun⟩, fun _ _ h => by cases h⟩
  have hothers : ∀ a ∈ others, ∀ s : KubernetesDeployment UInt8, s.Serving U M a := by
    have hserve : ∀ k, onPod k ∈ U → ∀ added removed, ∀ a ∈ listOf k [1, 2] added removed,
        ∀ s : KubernetesDeployment UInt8, s.Serving U M a := by
      intro k hk added removed
      exact serving_listOf hk (by decide) (by decide)
    have hserve₁ := hserve 1 (hk 1 (by decide))
    have hserve₂ := hserve 2 (hk 2 (by decide))
    simp only [others, List.forall_mem_append]
    exact ⟨⟨⟨hserve₁ _ _, hserve₂ _ _⟩, fun a ha => hserve₁ _ _ a (List.mem_of_mem_take ha)⟩,
      fun a ha => hserve₂ _ _ a (List.mem_of_mem_take ha)⟩
  have hcount : ∀ n ∈ M, others.countP
      (KubernetesDeployment.taskOf n KubernetesDeployment.start) = 10 := by decide
  obtain ⟨hconverges, hlost⟩ :=
    kubernetes_converges parsesIpv4 addressable_onPod (.of_foldlM hbefore hs₀)
  refine ⟨s₀, s, hconverges M s "key" hM (Finset.insert_nonempty _ _) fun n hn =>
    ⟨10, by decide, ?_⟩, ?_⟩
  · have hrun := Reaches.counting_of_foldlM (k := 0) (P := KubernetesDeployment.taskOf n)
      (p := KubernetesDeployment.taskOf n KubernetesDeployment.start) hothers (fun _ _ => rfl) hs
    rw [Nat.zero_add, hcount n hn] at hrun
    exact .head (hfailing s₀) (counting_skip hs₁ rfl) hrun
  · have hrun := Reaches.of_foldlM hothers hs
    obtain ⟨hgone, hsame⟩ := hlost _ _ _ s₁ s hs₁ (hrun.mono fun _ _ h => h.1)
    exact ⟨hgone, hsame, hpeers⟩

end Groupcache
