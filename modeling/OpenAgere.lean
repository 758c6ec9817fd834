import OpenAgere.PatchGrammar
import OpenAgere.PatchStreaming
import OpenAgere.ReplacementRegions
import OpenAgere.PatchAgreement
import OpenAgere.AssistantText
import OpenAgere.ChatToolCalls
import OpenAgere.ChatStream
import OpenAgere.ChatLifecycle
import OpenAgere.AnthropicSse
import OpenAgere.AnthropicRequest
import OpenAgere.RolloutTurns
import OpenAgere.NetworkRuleHost
import OpenAgere.RollbackAgreement
import OpenAgere.SemanticSignature
import OpenAgere.NetworkUpdates
import OpenAgere.ClientLifecycle
import OpenAgere.OutboundBuffer
import OpenAgere.ExecClient
import OpenAgere.SessionRegistry
import OpenAgere.ExecutorTransport
import OpenAgere.RolloutWriter
import OpenAgere.AgentRegistry
import OpenAgere.GoalAccounting
import OpenAgere.ConfigLayers
import OpenAgere.SafeCommands
import OpenAgere.WireProjection
import OpenAgere.ToolQualification
import OpenAgere.AccessRequirements
import OpenAgere.ResponsesSse
import OpenAgere.FuzzyMatch
