import CheshireCat.Agents.FormattedMemories
import CheshireCat.Agents.MainAgent
import CheshireCat.Auth.Administration
import CheshireCat.Cache.FileSystemCache
import CheshireCat.Components.AllOrNothing
import CheshireCat.Components.Deletion
import CheshireCat.Components.Ownership
import CheshireCat.Components.Projects
import CheshireCat.Documents.AggregatedChunks
import CheshireCat.Documents.FreshLock
import CheshireCat.Documents.IngestMemory
import CheshireCat.Documents.Recall
import CheshireCat.Documents.UploadRoutes
import CheshireCat.Documents.UploadedDocuments
import CheshireCat.Form.Submission
import CheshireCat.Form.Validation
import CheshireCat.LookingGlass.ProceduralMemory
import CheshireCat.LookingGlass.Transports
import CheshireCat.LookingGlass.WhiteRabbit
import CheshireCat.MadHatter.CorePlugin
import CheshireCat.MadHatter.CustomRoutes
import CheshireCat.MadHatter.Extractor
import CheshireCat.MadHatter.Install
import CheshireCat.MadHatter.ModuleNames
import CheshireCat.MadHatter.Registration
import CheshireCat.MadHatter.Restart
import CheshireCat.MadHatter.SettingsFile
import CheshireCat.MadHatter.Toggle
import CheshireCat.MadHatter.Tolerance
import CheshireCat.Memory.AllPoints
import CheshireCat.Memory.Collection
import CheshireCat.Memory.Containment
import CheshireCat.Memory.Recall
import CheshireCat.Procedures.EmbedRuns
import CheshireCat.Procedures.TriggerKeys
import CheshireCat.Session.Connections
import CheshireCat.Session.HistoryViews
import CheshireCat.Session.ModelInteractions
import CheshireCat.Session.SharedDocuments
import CheshireCat.Session.UserFiles
import CheshireCat.Session.WholeTurns
import CheshireCat.Settings.ModelChange
import CheshireCat.Settings.Store
